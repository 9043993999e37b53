/-
The MD5 digest of `md5.c`, which the secure plugin signs its messages with. The data come in pieces of any size; a
context counts their bits and keeps what does not fill a block of 64 bytes yet.
-/
import Olsrd.Lib.BlockDigest
import Olsrd.Lib.Run
import Olsrd.Secure.Signature

namespace Olsrd.Secure

open Bytes
open BlockDigest (absorb)

/-! ## The basic transformation -/

/-- `state` of `MD5_CTX` -/
structure Md5State where
  a : UInt32
  b : UInt32
  c : UInt32
  d : UInt32
  deriving DecidableEq

/-- `ROTATE_LEFT` -/
def rotateLeft (x n : UInt32) : UInt32 := (x <<< n) ||| (x >>> (32 - n))

def ff (a b c d x s ac : UInt32) : UInt32 := rotateLeft (a + ((b &&& c) ||| (~~~b &&& d)) + x + ac) s + b

def gg (a b c d x s ac : UInt32) : UInt32 := rotateLeft (a + ((b &&& d) ||| (c &&& ~~~d)) + x + ac) s + b

def hh (a b c d x s ac : UInt32) : UInt32 := rotateLeft (a + (b ^^^ c ^^^ d) + x + ac) s + b

def ii (a b c d x s ac : UInt32) : UInt32 := rotateLeft (a + (c ^^^ (b ||| ~~~d)) + x + ac) s + b

/-- `Encode`, for one word -/
def encode (w : UInt32) : List UInt8 :=
  [(w &&& 0xff).toUInt8, ((w >>> 8) &&& 0xff).toUInt8, ((w >>> 16) &&& 0xff).toUInt8, ((w >>> 24) &&& 0xff).toUInt8]

/-- `Decode`, the word at the index `i` -/
def decode (input : List UInt8) (i : Nat) : UInt32 :=
  (input.getD (4 * i) 0).toUInt32 ||| ((input.getD (4 * i + 1) 0).toUInt32 <<< 8) |||
    ((input.getD (4 * i + 2) 0).toUInt32 <<< 16) ||| ((input.getD (4 * i + 3) 0).toUInt32 <<< 24)

/-- `MD5Transform` -/
def md5Transform (state : Md5State) (block : List UInt8) : Md5State :=
  let x := decode block
  let a := state.a
  let b := state.b
  let c := state.c
  let d := state.d
  -- round 1
  let a := ff a b c d (x 0) 7 0xd76aa478
  let d := ff d a b c (x 1) 12 0xe8c7b756
  let c := ff c d a b (x 2) 17 0x242070db
  let b := ff b c d a (x 3) 22 0xc1bdceee
  let a := ff a b c d (x 4) 7 0xf57c0faf
  let d := ff d a b c (x 5) 12 0x4787c62a
  let c := ff c d a b (x 6) 17 0xa8304613
  let b := ff b c d a (x 7) 22 0xfd469501
  let a := ff a b c d (x 8) 7 0x698098d8
  let d := ff d a b c (x 9) 12 0x8b44f7af
  let c := ff c d a b (x 10) 17 0xffff5bb1
  let b := ff b c d a (x 11) 22 0x895cd7be
  let a := ff a b c d (x 12) 7 0x6b901122
  let d := ff d a b c (x 13) 12 0xfd987193
  let c := ff c d a b (x 14) 17 0xa679438e
  let b := ff b c d a (x 15) 22 0x49b40821
  -- round 2
  let a := gg a b c d (x 1) 5 0xf61e2562
  let d := gg d a b c (x 6) 9 0xc040b340
  let c := gg c d a b (x 11) 14 0x265e5a51
  let b := gg b c d a (x 0) 20 0xe9b6c7aa
  let a := gg a b c d (x 5) 5 0xd62f105d
  let d := gg d a b c (x 10) 9 0x2441453
  let c := gg c d a b (x 15) 14 0xd8a1e681
  let b := gg b c d a (x 4) 20 0xe7d3fbc8
  let a := gg a b c d (x 9) 5 0x21e1cde6
  let d := gg d a b c (x 14) 9 0xc33707d6
  let c := gg c d a b (x 3) 14 0xf4d50d87
  let b := gg b c d a (x 8) 20 0x455a14ed
  let a := gg a b c d (x 13) 5 0xa9e3e905
  let d := gg d a b c (x 2) 9 0xfcefa3f8
  let c := gg c d a b (x 7) 14 0x676f02d9
  let b := gg b c d a (x 12) 20 0x8d2a4c8a
  -- round 3
  let a := hh a b c d (x 5) 4 0xfffa3942
  let d := hh d a b c (x 8) 11 0x8771f681
  let c := hh c d a b (x 11) 16 0x6d9d6122
  let b := hh b c d a (x 14) 23 0xfde5380c
  let a := hh a b c d (x 1) 4 0xa4beea44
  let d := hh d a b c (x 4) 11 0x4bdecfa9
  let c := hh c d a b (x 7) 16 0xf6bb4b60
  let b := hh b c d a (x 10) 23 0xbebfbc70
  let a := hh a b c d (x 13) 4 0x289b7ec6
  let d := hh d a b c (x 0) 11 0xeaa127fa
  let c := hh c d a b (x 3) 16 0xd4ef3085
  let b := hh b c d a (x 6) 23 0x4881d05
  let a := hh a b c d (x 9) 4 0xd9d4d039
  let d := hh d a b c (x 12) 11 0xe6db99e5
  let c := hh c d a b (x 15) 16 0x1fa27cf8
  let b := hh b c d a (x 2) 23 0xc4ac5665
  -- round 4
  let a := ii a b c d (x 0) 6 0xf4292244
  let d := ii d a b c (x 7) 10 0x432aff97
  let c := ii c d a b (x 14) 15 0xab9423a7
  let b := ii b c d a (x 5) 21 0xfc93a039
  let a := ii a b c d (x 12) 6 0x655b59c3
  let d := ii d a b c (x 3) 10 0x8f0ccc92
  let c := ii c d a b (x 10) 15 0xffeff47d
  let b := ii b c d a (x 1) 21 0x85845dd1
  let a := ii a b c d (x 8) 6 0x6fa87e4f
  let d := ii d a b c (x 15) 10 0xfe2ce6e0
  let c := ii c d a b (x 6) 15 0xa3014314
  let b := ii b c d a (x 13) 21 0x4e0811a1
  let a := ii a b c d (x 4) 6 0xf7537e82
  let d := ii d a b c (x 11) 10 0xbd3af235
  let c := ii c d a b (x 2) 15 0x2ad7d2bb
  let b := ii b c d a (x 9) 21 0xeb86d391
  ⟨state.a + a, state.b + b, state.c + c, state.d + d⟩

/-! ## Contexts -/

/-- `MD5_CTX`; the two words of `count` are the number of bits. -/
structure Md5Ctx where
  state : Md5State
  count0 : UInt32
  count1 : UInt32
  buffer : Mem

/-- The magic initialization constants. -/
def md5Start : Md5State := ⟨0x67452301, 0xefcdab89, 0x98badcfe, 0x10325476⟩

/-- `MD5Init` leaves the buffer as it is. -/
def md5Init (buffer : Mem) : Md5Ctx := ⟨md5Start, 0, 0, buffer⟩

/-- The number of bytes mod 64. -/
def Md5Ctx.idx (context : Md5Ctx) : Nat := ((context.count0 >>> 3) &&& 0x3f).toNat

/-- The loop of `MD5Update`, from the index `i` on, which is an `unsigned int`; there is no result when it leaves the
input. -/
def transformBlocks (input : List UInt8) (state : Md5State) (i : Nat) : Option (Md5State × Nat) :=
  if (i + 63) % 4294967296 < input.length then
    if i + 64 ≤ input.length then transformBlocks input (md5Transform state ((input.drop i).take 64)) (i + 64) else none
  else some (state, i)
termination_by input.length - i

/-- `MD5Update` -/
def md5Update (context : Md5Ctx) (input : List UInt8) : Option Md5Ctx :=
  let inputLen := UInt32.ofNat input.length
  let idx := context.idx
  -- update number of bits
  let count0 := context.count0 + (inputLen <<< 3)
  let count1 := (if count0 < inputLen <<< 3 then context.count1 + 1 else context.count1) + (inputLen >>> 29)
  let partLen := 64 - idx
  -- transform as many times as possible
  if input.length ≥ partLen then do
    let buffer := context.buffer.write idx (input.take partLen)
    let (state, i) ← transformBlocks input (md5Transform context.state (buffer.slice 0 64)) partLen
    -- buffer remaining input
    pure ⟨state, count0, count1, buffer.write 0 (input.drop i)⟩
  else pure ⟨context.state, count0, count1, context.buffer.write idx input⟩

/-- `PADDING` -/
def padding : List UInt8 := 0x80 :: List.replicate 63 0

def Md5State.digest (state : Md5State) : List UInt8 :=
  encode state.a ++ encode state.b ++ encode state.c ++ encode state.d

/-- `MD5Final` -/
def md5Final (context : Md5Ctx) : Option (List UInt8) := do
  let bits := encode context.count0 ++ encode context.count1
  -- pad out to 56 mod 64
  let padLen := if context.idx < 56 then 56 - context.idx else 120 - context.idx
  let context ← md5Update context (padding.take padLen)
  -- append length (before padding)
  let context ← md5Update context bits
  pure context.state.digest

/-- `MD5_checksum`; the context is on the stack. -/
def md5Checksum (stack : Mem) (data : List UInt8) : Option (List UInt8) := do
  let context ← md5Update (md5Init stack) data
  md5Final context

/-! ## The digest of a message -/

/-- A message with a one bit, zeros up to 56 mod 64, and the number of its bits. -/
def md5Padded (message : List UInt8) : List UInt8 :=
  message ++ 0x80 :: List.replicate ((119 - message.length % 64) % 64) 0 ++
    littleEnd 8 (8 * message.length % 18446744073709551616)

/-- The digest of a message: its blocks are transformed one after the other. -/
def md5 (message : List UInt8) : List UInt8 := (absorb 64 md5Transform md5Start (md5Padded message)).1.digest

theorem length_md5Padded (message : List UInt8) : (md5Padded message).length % 64 = 0 := by
  simp only [md5Padded, List.length_append, List.length_cons, List.length_replicate, length_littleEnd]
  omega

/-! ## Pieces -/

/-- The context has taken in the message. -/
structure Md5Ctx.Has (context : Md5Ctx) (message : List UInt8) : Prop where
  state : context.state = (absorb 64 md5Transform md5Start message).1
  buffer : context.buffer.slice 0 (message.length % 64) = (absorb 64 md5Transform md5Start message).2
  count : context.count0.toNat + 4294967296 * context.count1.toNat = 8 * message.length % 18446744073709551616

variable {context : Md5Ctx} {message input : List UInt8}

theorem md5Init_has (buffer : Mem) : (md5Init buffer).Has [] := by
  have habsorb : absorb 64 md5Transform md5Start [] = (md5Start, []) := BlockDigest.absorb_short (by decide)
  refine ⟨?_, ?_, rfl⟩
  · rw [habsorb]
    rfl
  · rw [habsorb]
    rfl

theorem Md5Ctx.Has.idx (h : context.Has message) : context.idx = message.length % 64 := by
  have hcount := h.count
  have hlt := context.count0.toNat_lt
  have hmask : (context.count0.toNat / 8) &&& 63 = context.count0.toNat / 8 % 64 := Nat.and_two_pow_sub_one_eq_mod _ 6
  have hidx : context.idx = context.count0.toNat / 8 % 64 := by
    rw [Md5Ctx.idx, UInt32.toNat_and, UInt32.toNat_shiftRight, Nat.shiftRight_eq_div_pow]
    exact hmask
  omega

/-- Both words of the count, with the carry from one to the other. -/
theorem count_update (h : context.Has message) (hlen : input.length < 4294967296) {inputLen count0 : UInt32}
    (hinput : inputLen = UInt32.ofNat input.length) (hcount0 : count0 = context.count0 + (inputLen <<< 3)) :
    count0.toNat + 4294967296 *
      ((if count0 < inputLen <<< 3 then context.count1 + 1 else context.count1) + (inputLen >>> 29)).toNat =
      8 * (message ++ input).length % 18446744073709551616 := by
  have hcount := h.count
  have hlt0 := context.count0.toNat_lt
  have hlt1 := context.count1.toNat_lt
  have hleft : (inputLen <<< 3).toNat = input.length * 8 % 4294967296 := by
    rw [hinput, UInt32.toNat_shiftLeft, UInt32.toNat_ofNat_of_lt' hlen, Nat.shiftLeft_eq]
    rfl
  have hright : (inputLen >>> 29).toNat = input.length / 536870912 := by
    rw [hinput, UInt32.toNat_shiftRight, UInt32.toNat_ofNat_of_lt' hlen, Nat.shiftRight_eq_div_pow]
    rfl
  have hsum : count0.toNat = (context.count0.toNat + input.length * 8 % 4294967296) % 4294967296 := by
    rw [hcount0, UInt32.toNat_add, hleft]
  rw [UInt32.toNat_add, hright, hsum, List.length_append]
  by_cases hcarry : count0 < inputLen <<< 3
  · rw [if_pos hcarry, UInt32.toNat_add]
    rw [UInt32.lt_iff_toNat_lt, hsum, hleft] at hcarry
    simp only [UInt32.toNat_one]
    omega
  · rw [if_neg hcarry]
    rw [UInt32.lt_iff_toNat_lt, hsum, hleft] at hcarry
    omega

/-- The loop takes in the full blocks of the input, if its index does not wrap. -/
theorem transformBlocks_spec (hlen : input.length ≤ 4294967232) (state : Md5State) (i : Nat) (hi : i ≤ input.length) :
    ∃ j, transformBlocks input state i = some ((absorb 64 md5Transform state (input.drop i)).1, j) ∧
      (absorb 64 md5Transform state (input.drop i)).2 = input.drop j := by
  induction hn : input.length - i using Nat.strong_induction_on generalizing i state with
  | _ n ih =>
    rw [transformBlocks, Nat.mod_eq_of_lt (by omega)]
    by_cases hblock : i + 64 ≤ input.length
    · obtain ⟨j, hj, hrest⟩ :=
        ih (input.length - (i + 64)) (by omega) (md5Transform state ((input.drop i).take 64)) (i + 64) hblock rfl
      have habsorb : absorb 64 md5Transform state (input.drop i) =
          absorb 64 md5Transform (md5Transform state ((input.drop i).take 64)) (input.drop (i + 64)) := by
        conv_lhs => rw [← List.take_append_drop 64 (input.drop i)]
        rw [BlockDigest.absorb_block (by decide) (by simp; omega), List.drop_drop]
      rw [if_pos (by omega), if_pos hblock, habsorb]
      exact ⟨j, hj, hrest⟩
    · have habsorb : absorb 64 md5Transform state (input.drop i) = (state, input.drop i) :=
        BlockDigest.absorb_short (by simp; omega)
      rw [if_neg (by omega), habsorb]
      exact ⟨i, rfl, rfl⟩

/-- A piece of the message is taken in. -/
theorem Md5Ctx.Has.update (h : context.Has message) (hlen : input.length ≤ 4294967232) :
    ∃ context', md5Update context input = some context' ∧ context'.Has (message ++ input) := by
  have hidx := h.idx
  have hcount := count_update h (by omega : input.length < 4294967296) rfl rfl
  have hrest : (absorb 64 md5Transform md5Start message).2.length = message.length % 64 :=
    BlockDigest.length_absorb (by decide)
  have happend : absorb 64 md5Transform md5Start (message ++ input) =
      absorb 64 md5Transform context.state (context.buffer.slice 0 (message.length % 64) ++ input) := by
    rw [h.state, h.buffer]
    exact BlockDigest.absorb_append (by decide)
  -- what waits in the buffer, with the start of the piece behind it
  have hbuffer : ∀ bs : List UInt8, (context.buffer.write context.idx bs).slice 0 (message.length % 64 + bs.length) =
      context.buffer.slice 0 (message.length % 64) ++ bs := by
    intro bs
    rw [Mem.slice_add, Mem.slice_write_out (by omega), Nat.zero_add, ← hidx, Mem.slice_write]
  unfold md5Update
  dsimp only
  by_cases hfull : input.length ≥ 64 - context.idx
  · have htake : (input.take (64 - context.idx)).length = 64 - context.idx := List.length_take_of_le hfull
    have hblock := hbuffer (input.take (64 - context.idx))
    rw [htake, hidx, show message.length % 64 + (64 - message.length % 64) = 64 by omega] at hblock
    have habsorb : absorb 64 md5Transform md5Start (message ++ input) = absorb 64 md5Transform
        (md5Transform context.state
        (context.buffer.slice 0 (message.length % 64) ++ input.take (64 - message.length % 64)))
        (input.drop (64 - message.length % 64)) := by
      rw [happend, ← BlockDigest.absorb_block (by decide) (by simp; omega), List.append_assoc, List.take_append_drop]
    obtain ⟨j, hj, hdrop⟩ := transformBlocks_spec hlen
      (md5Transform context.state
      (context.buffer.slice 0 (message.length % 64) ++ input.take (64 - message.length % 64)))
      (64 - message.length % 64) (hidx ▸ hfull)
    rw [if_pos hfull, hidx, hblock, hj]
    refine ⟨_, rfl, ?_, ?_, hcount⟩
    · rw [habsorb]
    · have hlength : (input.drop j).length = (message ++ input).length % 64 := by
        rw [← hdrop, ← habsorb]
        exact BlockDigest.length_absorb (by decide)
      rw [habsorb, hdrop, ← hlength]
      exact (context.buffer.write (message.length % 64) (input.take (64 - message.length % 64))).slice_write 0
        (input.drop j)
  · have hshort : (context.buffer.slice 0 (message.length % 64) ++ input).length < 64 := by
      rw [List.length_append, Mem.length_slice]
      omega
    rw [BlockDigest.absorb_short hshort] at happend
    rw [if_neg hfull]
    refine ⟨_, rfl, ?_, ?_, hcount⟩
    · rw [happend]
    · rw [happend, ← hbuffer input, List.length_append]
      congr 1
      omega

theorem toUInt8_and_ff (w : UInt32) : (w &&& 0xff).toUInt8 = UInt8.ofNat w.toNat := by
  have hmask : w.toNat &&& 255 = w.toNat % 256 := Nat.and_two_pow_sub_one_eq_mod _ 8
  rw [← UInt8.toNat_inj, UInt32.toNat_toUInt8, UInt32.toNat_and, UInt8.toNat_ofNat']
  show (w.toNat &&& 255) % 256 = w.toNat % 256
  rw [hmask, Nat.mod_mod]

theorem encode_eq (w : UInt32) : encode w = littleEnd 4 w.toNat := by
  have hshift : ∀ k : UInt32, k.toNat < 32 → (w >>> k).toNat = w.toNat / 2 ^ k.toNat := fun k hk => by
    rw [UInt32.toNat_shiftRight, Nat.mod_eq_of_lt hk, Nat.shiftRight_eq_div_pow]
  simp only [encode, toUInt8_and_ff, littleEnd, Nat.div_div_eq_div_mul]
  rw [hshift 8 (by decide), hshift 16 (by decide), hshift 24 (by decide)]
  rfl

/-- The bits of a count of 64 bits. -/
theorem encode_count {count0 count1 : UInt32} {n : Nat} (h : count0.toNat + 4294967296 * count1.toNat = n) :
    encode count0 ++ encode count1 = littleEnd 8 n := by
  have hlt := count0.toNat_lt
  have hlow : n % 256 ^ 4 = count0.toNat := by
    rw [show 256 ^ 4 = 4294967296 from rfl]
    omega
  have hhigh : n / 256 ^ 4 = count1.toNat := by
    rw [show 256 ^ 4 = 4294967296 from rfl]
    omega
  rw [encode_eq, encode_eq, littleEnd_add 4 4, ← littleEnd_mod 4 n, hlow, hhigh]

/-- The end of a message: what is in the context is padded, and its digest is that of the message. -/
theorem Md5Ctx.Has.final (h : context.Has message) : md5Final context = some (md5 message) := by
  have hidx := h.idx
  have hpadding : padding.take (if context.idx < 56 then 56 - context.idx else 120 - context.idx) =
      0x80 :: List.replicate ((119 - message.length % 64) % 64) 0 := by
    rw [padding, hidx]
    obtain ⟨n, hn, hlen⟩ :
        ∃ n, (if message.length % 64 < 56 then 56 - message.length % 64 else 120 - message.length % 64) =
          n + 1 ∧ n = (119 - message.length % 64) % 64 := by
      split
      · exact ⟨55 - message.length % 64, by omega, by omega⟩
      · exact ⟨119 - message.length % 64, by omega, by omega⟩
    rw [hn, List.take_succ_cons, List.take_replicate, hlen, Nat.min_eq_left (by omega)]
  have hshort : (0x80 :: List.replicate ((119 - message.length % 64) % 64) (0 : UInt8)).length ≤ 4294967232 := by
    rw [List.length_cons, List.length_replicate]
    omega
  have hbits : (encode context.count0 ++ encode context.count1).length ≤ 4294967232 := by simp [encode]
  obtain ⟨context₁, h₁, hpadded⟩ := h.update hshort
  obtain ⟨context₂, h₂, hcounted⟩ := hpadded.update hbits
  unfold md5Final
  dsimp only
  rw [hpadding]
  simp only [h₁, Option.bind_eq_bind, Option.bind_some, h₂]
  rw [hcounted.state, encode_count h.count]
  rfl

/-- A message may come in any pieces of up to 2^32 - 64 bytes, whatever was in the buffer before: the digest is that of
the whole message, which fills its last block. -/
theorem md5_pieces (buffer : Mem) {pieces : List (List UInt8)} (h : ∀ piece ∈ pieces, piece.length ≤ 4294967232) :
    (∃ context, Run.forEach md5Update pieces (md5Init buffer) = some context ∧
      md5Final context = some (md5 pieces.flatten)) ∧
    (absorb 64 md5Transform md5Start (md5Padded pieces.flatten)).2 = [] := by
  constructor
  · have hrun : ∃ context, Run.forEach md5Update pieces (md5Init buffer) = some context ∧
        context.Has pieces.flatten := by
      refine Run.forEach_prefix (P := fun done (context : Md5Ctx) => context.Has done.flatten) ?_ (md5Init_has buffer)
      intro done piece context hpiece hhas
      rw [List.flatten_append, List.flatten_singleton]
      exact hhas.update (h piece hpiece)
    obtain ⟨context, hrun, hhas⟩ := hrun
    exact ⟨context, hrun, hhas.final⟩
  · rw [← List.length_eq_zero_iff, BlockDigest.length_absorb (by decide)]
    exact length_md5Padded _

/-- A digest from the standard, over two pieces. -/
theorem md5_pieces_abc :
    (∃ context, Run.forEach md5Update [[97], [98, 99]] (md5Init fun _ => 7) = some context ∧ md5Final context = some
      [0x90, 0x01, 0x50, 0x98, 0x3c, 0xd2, 0x4f, 0xb0, 0xd6, 0x96, 0x3f, 0x7d, 0x28, 0xe1, 0x7f, 0x72]) ∧
    (absorb 64 md5Transform md5Start (md5Padded [97, 98, 99])).2 = [] := by
  have hdigest : md5 [97, 98, 99] =
      [0x90, 0x01, 0x50, 0x98, 0x3c, 0xd2, 0x4f, 0xb0, 0xd6, 0x96, 0x3f, 0x7d, 0x28, 0xe1, 0x7f, 0x72] := by
      decide +kernel
  have hflatten : [[97], [98, 99]].flatten = ([97, 98, 99] : List UInt8) := rfl
  have hpieces := @md5_pieces (fun _ => 7) [[97], [98, 99]] (by decide)
  rwa [hflatten, hdigest] at hpieces

/-! ## The plugin -/

theorem md5Checksum_eq (stack : Mem) {data : List UInt8} (h : data.length ≤ 4294967232) :
    md5Checksum stack data = some (md5 data) := by
  obtain ⟨context, hrun, hhas⟩ := (md5Init_has stack).update h
  rw [List.nil_append] at hhas
  unfold md5Checksum
  rw [hrun]
  exact hhas.final

/-- The scheme of the plugin when it is built with `md5.c`. -/
def md5Scheme (platform : Platform) (stack : Mem) (aesKey : List UInt8) (h : aesKey.length = keyLength) : Scheme where
  platform := platform
  checksum data := (md5Checksum stack data).getD []
  aesKey := aesKey
  length_aesKey := h

/-- What is signed is the digest of the start of the packet with the key behind it. -/
theorem digestOf_md5Scheme {platform : Platform} {stack : Mem} {aesKey : List UInt8} (h : aesKey.length = keyLength)
    {pck : Mem} {n : Nat} (hn : n + keyLength ≤ checksumCacheSize) :
    digestOf (md5Scheme platform stack aesKey h) pck n = some (md5 (pck.slice 0 n ++ aesKey)) := by
  have hlen : (pck.slice 0 n ++ aesKey).length ≤ 4294967232 := by
    rw [List.length_append, Mem.length_slice, h]
    exact le_trans hn (by decide)
  have hsign : (md5Scheme platform stack aesKey h).sign (pck.slice 0 n) = md5 (pck.slice 0 n ++ aesKey) := by
    unfold Scheme.sign md5Scheme
    dsimp only
    rw [md5Checksum_eq stack hlen, Option.getD_some]
  unfold digestOf
  rw [if_pos hn, hsign]

end Olsrd.Secure
