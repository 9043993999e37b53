/-
The growing buffers of `common/autobuf.c`: a block of memory whose first `len` bytes are the content, meant to be a
string of C at any time.
-/
import Olsrd.Lib.Bytes
import Olsrd.Lib.Run

namespace Olsrd.Common

open Bytes (Mem)

/-- `ROUND_UP_TO_POWER_OF_2`, where the mask takes away the remainder. -/
def roundUpToPowerOf2 (val pow2 : Nat) : Nat := (val + (pow2 - 1)) / pow2 * pow2

def autobufChunk : Nat := 4096

/-- `struct autobuf`; what `buf` points to goes on behind the block. -/
structure Autobuf where
  size : Nat
  len : Nat
  buf : Mem

/-- No block is larger than an `int` can tell. -/
def intMax : Nat := 2147483647

/-- `realloc`, for a block of `size` bytes; `fresh` is what lies behind the bytes that are kept. -/
def realloc (fresh buf : Mem) (size newSize : Nat) : Option Mem :=
  if newSize ≤ intMax then some fun i => if i < size ∧ i < newSize then buf i else fresh i else none

/-- `memset` with zeros -/
def clear (buf : Mem) (off n : Nat) : Mem := fun i => if off ≤ i ∧ i < off + n then 0 else buf i

/-- `memmove` within a block -/
def memmove (buf : Mem) (dest src n : Nat) : Mem := buf.write dest (buf.slice src n)

/-- `vsnprintf` of a text into `room` bytes -/
def vsnprintf (buf : Mem) (off room : Nat) (text : List UInt8) : Mem :=
  if room = 0 then buf else buf.write off (text.take (room - 1) ++ [0])

/-! ## Functions -/

/-- `abuf_init`, for a positive size -/
def abufInit (fresh : Mem) (initialSize : Nat) : Option Autobuf :=
  let size := roundUpToPowerOf2 initialSize autobufChunk
  if size ≤ intMax then some ⟨size, 0, (clear fresh 0 size).write 0 [0]⟩ else none

/-- `autobuf_enlarge` -/
def autobufEnlarge (fresh : Mem) (autobuf : Autobuf) (newSize : Nat) : Option Autobuf :=
  let newSize := newSize + 1
  if newSize > autobuf.size then do
    let roundUpSize := roundUpToPowerOf2 newSize autobufChunk
    let p ← realloc fresh autobuf.buf autobuf.size roundUpSize
    pure { autobuf with buf := clear p autobuf.size (roundUpSize - autobuf.size), size := roundUpSize }
  else some autobuf

/-- `abuf_vappendf`, for a format and arguments that are printed as `text` -/
def abufVappendf (fresh : Mem) (autobuf : Autobuf) (text : List UInt8) : Option Autobuf :=
  let print (autobuf : Autobuf) : Autobuf :=
    { autobuf with buf := vsnprintf autobuf.buf autobuf.len (autobuf.size - autobuf.len) text }
  let autobuf := print autobuf
  let minSize := autobuf.len + text.length
  let printed := if minSize ≥ autobuf.size then (autobufEnlarge fresh autobuf minSize).map print else some autobuf
  printed.map fun autobuf => { autobuf with len := minSize }

/-- `abuf_appendf` -/
def abufAppendf (fresh : Mem) (autobuf : Autobuf) (text : List UInt8) : Option Autobuf :=
  abufVappendf fresh autobuf text

/-- `abuf_puts`; a string is given by its characters. -/
def abufPuts (fresh : Mem) (autobuf : Autobuf) (s : Option (List UInt8)) : Option Autobuf :=
  match s with
  | none => some autobuf
  | some s => do
    let autobuf ← autobufEnlarge fresh autobuf (autobuf.len + s.length + 1)
    pure { autobuf with buf := autobuf.buf.write autobuf.len (s ++ [0]), len := autobuf.len + s.length }

/-- `abuf_memcpy` -/
def abufMemcpy (fresh : Mem) (autobuf : Autobuf) (p : List UInt8) : Option Autobuf := do
  let autobuf ← autobufEnlarge fresh autobuf (autobuf.len + p.length)
  pure { autobuf with buf := autobuf.buf.write autobuf.len p, len := autobuf.len + p.length }

/-- `abuf_memcpy_prefix` -/
def abufMemcpyPrefix (fresh : Mem) (autobuf : Autobuf) (p : List UInt8) : Option Autobuf := do
  let autobuf ← autobufEnlarge fresh autobuf (autobuf.len + p.length)
  let buf := memmove autobuf.buf p.length 0 autobuf.len
  pure { autobuf with buf := buf.write 0 p, len := autobuf.len + p.length }

/-- `abuf_pull` -/
def abufPull (fresh : Mem) (autobuf : Autobuf) (len : Nat) : Option Autobuf := do
  let buf := if len ≠ autobuf.len then memmove autobuf.buf 0 len (autobuf.len - len) else autobuf.buf
  let autobuf := { autobuf with buf := buf, len := autobuf.len - len }
  let newsize := roundUpToPowerOf2 (autobuf.len + 1) autobufChunk
  let p ← realloc fresh autobuf.buf autobuf.size newsize
  pure { autobuf with buf := p, size := newsize }

/-! ## Calls -/

inductive Call where
  | puts (s : Option (List UInt8))
  | memcpy (p : List UInt8)
  | memcpyPrefix (p : List UInt8)
  | appendf (text : List UInt8)
  | pull (len : Nat)

def Call.run (fresh : Mem) (autobuf : Autobuf) : Call → Option Autobuf
  | .puts s => abufPuts fresh autobuf s
  | .memcpy p => abufMemcpy fresh autobuf p
  | .memcpyPrefix p => abufMemcpyPrefix fresh autobuf p
  | .appendf text => abufAppendf fresh autobuf text
  | .pull len => abufPull fresh autobuf len

/-- What a call does to a list of bytes. -/
def Call.onList (content : List UInt8) : Call → List UInt8
  | .puts none => content
  | .puts (some s) => content ++ s
  | .memcpy p => content ++ p
  | .memcpyPrefix p => p ++ content
  | .appendf text => content ++ text
  | .pull len => content.drop len

/-- The buffer has these bytes, and room for one more. -/
structure Contains (autobuf : Autobuf) (content : List UInt8) : Prop where
  len : autobuf.len = content.length
  room : autobuf.len < autobuf.size
  bytes : autobuf.buf.slice 0 autobuf.len = content

/-- The content ends as a string of C does. -/
def Terminated (autobuf : Autobuf) : Prop := autobuf.buf autobuf.len = 0

/-- No more is pulled than there is. -/
def Call.Valid (autobuf : Autobuf) : Call → Prop
  | .pull len => len ≤ autobuf.len
  | _ => True

/-- The block has a zero at this place, or does not reach it. -/
def ZeroAt (autobuf : Autobuf) (i : Nat) : Prop := i < autobuf.size → autobuf.buf i = 0

/-- A call that does not write a zero behind the new content finds one there. -/
def Call.EndsAtZero (autobuf : Autobuf) : Call → Prop
  | .puts _ => True
  | .appendf _ => True
  | .memcpy p => ZeroAt autobuf (autobuf.len + p.length)
  | .memcpyPrefix p => ZeroAt autobuf (autobuf.len + p.length)
  | .pull len => ZeroAt autobuf (autobuf.len - len)

/-- The buffers that calls lead to, with the bytes they should have. -/
def Called (ok : Autobuf → Call → Prop) : Autobuf × List UInt8 → Prop :=
  Run.Reaches (fun s => ∃ fresh initialSize, 0 < initialSize ∧ abufInit fresh initialSize = some s.1 ∧ s.2 = [])
    (fun s (e : Mem × Call) => e.2.Valid s.1 ∧ ok s.1 e.2)
    (fun s (e : Mem × Call) => (e.2.run e.1 s.1).map fun autobuf => (autobuf, e.2.onList s.2))

/-! ## Growth -/

variable {autobuf autobuf' : Autobuf} {fresh : Mem} {content : List UInt8} {call : Call} {n : Nat}

theorem lt_roundUp (n : Nat) : n < roundUpToPowerOf2 (n + 1) autobufChunk := by
  unfold roundUpToPowerOf2 autobufChunk
  omega

/-- The buffer has grown if it had to: what was in the block is there still, and zeros behind it. -/
theorem autobufEnlarge_spec (h : autobufEnlarge fresh autobuf n = some autobuf') :
    autobuf'.len = autobuf.len ∧ n < autobuf'.size ∧ autobuf.size ≤ autobuf'.size ∧
      (∀ i < autobuf.size, autobuf'.buf i = autobuf.buf i) ∧
      ∀ i, autobuf.size ≤ i → i < autobuf'.size → autobuf'.buf i = 0 := by
  unfold autobufEnlarge at h
  simp only at h
  split at h
  · next hsize =>
    unfold realloc at h
    split at h
    · obtain rfl := Option.some.inj h
      have hlt := lt_roundUp n
      refine ⟨rfl, hlt, by simp only; omega, fun i hi => ?_, fun i hi hi' => ?_⟩
      · simp only [clear]
        rw [if_neg (by omega), if_pos (by omega)]
      · simp only [clear] at hi' ⊢
        rw [if_pos (by omega)]
    · cases h
  · obtain rfl := Option.some.inj h
    exact ⟨rfl, by omega, le_refl _, fun _ _ => rfl, fun i hi hi' => absurd hi' (by omega)⟩

theorem Contains.enlarge (h : Contains autobuf content) (henlarge : autobufEnlarge fresh autobuf n = some autobuf') :
    autobuf'.buf.slice 0 autobuf.len = content := by
  obtain ⟨-, -, -, hkept, -⟩ := autobufEnlarge_spec henlarge
  have hroom := h.room
  rw [← h.bytes]
  exact Mem.slice_eq_iff.2 fun i hi => hkept _ (by omega)

/-! ## One call -/

theorem slice_write_behind {buf : Mem} {len : Nat} {text rest : List UInt8} (h : buf.slice 0 len = content) :
    (buf.write len (text ++ rest)).slice 0 (len + text.length) = content ++ text := by
  have hmid : (buf.write len (text ++ rest)).slice (len + 0) text.length = ((text ++ rest).drop 0).take text.length :=
    Mem.slice_write_mid (by simp)
  rw [Nat.add_zero, List.drop_zero, List.take_left] at hmid
  rw [Mem.slice_add, Nat.zero_add, hmid, Mem.slice_write_out (.inl (by omega)), h]

theorem write_behind_zero (buf : Mem) (len : Nat) (text : List UInt8) :
    (buf.write len (text ++ [0])) (len + text.length) = 0 := by
  rw [Mem.write_apply (by simp)]
  simp

theorem Contains.puts {s : List UInt8} (h : Contains autobuf content)
    (hrun : abufPuts fresh autobuf (some s) = some autobuf') :
    Contains autobuf' (content ++ s) ∧ Terminated autobuf' := by
  obtain ⟨b, henlarge, hrun⟩ := Option.bind_eq_some_iff.1 hrun
  obtain rfl := Option.some.inj hrun
  obtain ⟨hlen, hroom, -⟩ := autobufEnlarge_spec henlarge
  have hkept := h.enlarge henlarge
  rw [← hlen] at hkept hroom
  refine ⟨⟨?_, ?_, slice_write_behind hkept⟩, write_behind_zero ..⟩
  · simp only [List.length_append, hlen, h.len]
  · simp only
    omega

/-- Where a zero was, or nothing at all, is a zero after the growth. -/
theorem zeroAt_enlarge (h : autobufEnlarge fresh autobuf n = some autobuf') : autobuf'.buf n = 0 ↔
    ZeroAt autobuf n := by
  obtain ⟨-, hroom, -, hkept, hzero⟩ := autobufEnlarge_spec h
  by_cases hn : n < autobuf.size
  · rw [hkept n hn]
    exact ⟨fun h _ => h, fun h => h hn⟩
  · exact ⟨fun _ h => absurd h hn, fun _ => hzero n (by omega) hroom⟩

theorem Contains.memcpy {p : List UInt8} (h : Contains autobuf content)
    (hrun : abufMemcpy fresh autobuf p = some autobuf') :
    Contains autobuf' (content ++ p) ∧ (Terminated autobuf' ↔ ZeroAt autobuf (autobuf.len + p.length)) := by
  obtain ⟨b, henlarge, hrun⟩ := Option.bind_eq_some_iff.1 hrun
  obtain rfl := Option.some.inj hrun
  obtain ⟨hlen, hroom, -⟩ := autobufEnlarge_spec henlarge
  have hkept := h.enlarge henlarge
  have hbytes : (b.buf.write autobuf.len (p ++ [])).slice 0 (autobuf.len + p.length) = content ++ p :=
    slice_write_behind hkept
  rw [List.append_nil] at hbytes
  refine ⟨⟨?_, ?_, ?_⟩, ?_⟩
  · simp only [List.length_append, hlen, h.len]
  · simp only [hlen]
    exact hroom
  · simp only [hlen]
    exact hbytes
  · rw [← zeroAt_enlarge henlarge]
    simp only [Terminated, hlen]
    rw [Mem.write_apply_out (.inr (le_refl _))]

theorem Contains.memcpyPrefix {p : List UInt8} (h : Contains autobuf content)
    (hrun : abufMemcpyPrefix fresh autobuf p = some autobuf') :
    Contains autobuf' (p ++ content) ∧ (Terminated autobuf' ↔ ZeroAt autobuf (autobuf.len + p.length)) := by
  obtain ⟨b, henlarge, hrun⟩ := Option.bind_eq_some_iff.1 hrun
  obtain rfl := Option.some.inj hrun
  obtain ⟨hlen, hroom, -⟩ := autobufEnlarge_spec henlarge
  have hkept := h.enlarge henlarge
  refine ⟨⟨?_, ?_, ?_⟩, ?_⟩
  · simp only [List.length_append, hlen, h.len]
    omega
  · simp only [hlen]
    exact hroom
  · have hmoved := Mem.slice_write b.buf p.length content
    have hcopied := Mem.slice_write (b.buf.write p.length content) 0 p
    simp only [hlen, memmove, hkept]
    rw [Nat.add_comm, Mem.slice_add, Nat.zero_add, hcopied, Mem.slice_write_out (.inr (by omega)), h.len, hmoved]
  · rw [← zeroAt_enlarge henlarge]
    simp only [Terminated, hlen, memmove]
    rw [Mem.write_apply_out (.inr (by omega)), Mem.write_apply_out (.inr (by rw [Mem.length_slice]; omega))]

/-- A text that has room is printed, and a zero behind it. -/
theorem vsnprintf_eq {buf : Mem} {off room : Nat} {text : List UInt8} (h : text.length < room) :
    vsnprintf buf off room text = buf.write off (text ++ [0]) := by
  unfold vsnprintf
  rw [if_neg (by omega), List.take_of_length_le (by omega)]

theorem slice_vsnprintf (buf : Mem) (off room : Nat) (text : List UInt8) :
    (vsnprintf buf off room text).slice 0 off = buf.slice 0 off := by
  unfold vsnprintf
  split
  · rfl
  · exact Mem.slice_write_out (.inl (by omega))

theorem Contains.appendf {text : List UInt8} (h : Contains autobuf content)
    (hrun : abufAppendf fresh autobuf text = some autobuf') :
    Contains autobuf' (content ++ text) ∧ Terminated autobuf' := by
  obtain ⟨hlen, hroom, hbytes⟩ := h
  obtain ⟨b, hb, rfl⟩ := Option.map_eq_some_iff.1 hrun
  simp only at hb
  -- the block has room for the text now, and it is printed into it
  have hprinted : autobuf.len + text.length < b.size ∧ b.len = autobuf.len ∧
      ∃ buf : Mem, buf.slice 0 autobuf.len = content ∧ b.buf = buf.write autobuf.len (text ++ [0]) := by
    split at hb
    · next hfull =>
      obtain ⟨b₁, henlarge, rfl⟩ := Option.map_eq_some_iff.1 hb
      obtain ⟨hlen₁, hroom₁, -⟩ := autobufEnlarge_spec henlarge
      have hfirst : Contains { autobuf with buf := vsnprintf autobuf.buf autobuf.len (autobuf.size - autobuf.len) text }
        content :=
        ⟨hlen, hroom, (slice_vsnprintf ..).trans hbytes⟩
      simp only at hlen₁
      refine ⟨hroom₁, hlen₁, b₁.buf, hfirst.enlarge henlarge, ?_⟩
      simp only [hlen₁]
      exact vsnprintf_eq (by omega)
    · next hfits =>
      obtain rfl := Option.some.inj hb
      exact ⟨by simp only; omega, rfl, autobuf.buf, hbytes, vsnprintf_eq (by omega)⟩
  obtain ⟨hsize, hlen', buf, hkept, hbuf⟩ := hprinted
  refine ⟨⟨?_, hsize, ?_⟩, ?_⟩
  · simp only [List.length_append, hlen]
  · simp only [hbuf]
    exact slice_write_behind hkept
  · simp only [Terminated, hbuf]
    exact write_behind_zero ..

theorem Contains.pull (h : Contains autobuf content) (hn : n ≤ autobuf.len)
    (hrun : abufPull fresh autobuf n = some autobuf') :
    Contains autobuf' (content.drop n) ∧ (Terminated autobuf' ↔ ZeroAt autobuf (autobuf.len - n)) := by
  obtain ⟨hlen, hroom, hbytes⟩ := h
  obtain ⟨p, hp, hrun⟩ := Option.bind_eq_some_iff.1 hrun
  obtain rfl := Option.some.inj hrun
  simp only at hp
  obtain ⟨moved, hmoved⟩ : ∃ moved, moved =
      if n ≠ autobuf.len then memmove autobuf.buf 0 n (autobuf.len - n) else autobuf.buf := ⟨_, rfl⟩
  rw [← hmoved] at hp
  -- what is left has moved to the start, and the rest is as before
  have hbytes' : moved.slice 0 (autobuf.len - n) = content.drop n := by
    rw [hmoved]
    split
    · have hwritten := Mem.slice_write autobuf.buf 0 (autobuf.buf.slice n (autobuf.len - n))
      rw [Mem.length_slice] at hwritten
      have hdrop := Mem.slice_sub hbytes (show n + (autobuf.len - n) ≤ autobuf.len by omega)
      rw [Nat.zero_add, List.take_of_length_le (by rw [List.length_drop]; omega)] at hdrop
      rw [memmove, hwritten, hdrop]
    · next heq =>
      rw [not_not] at heq
      rw [heq, Nat.sub_self, hlen, List.drop_length]
      rfl
  have hbehind : moved (autobuf.len - n) = autobuf.buf (autobuf.len - n) := by
    rw [hmoved]
    split
    · exact Mem.write_apply_out (.inr (by rw [Mem.length_slice]; omega))
    · rfl
  have hlt := lt_roundUp (autobuf.len - n)
  have hkept : ∀ i ≤ autobuf.len - n, p i = moved i := by
    intro i hi
    unfold realloc at hp
    split at hp
    · obtain rfl := Option.some.inj hp
      exact if_pos ⟨by omega, by omega⟩
    · cases hp
  refine ⟨⟨by simp only [List.length_drop, hlen], hlt, ?_⟩, ?_⟩
  · rw [← hbytes']
    exact Mem.slice_eq_iff.2 fun i (hi : i < autobuf.len - n) => hkept _ (by omega)
  · simp only [Terminated, hkept _ (le_refl _), hbehind, ZeroAt]
    exact ⟨fun h _ => h, fun h => h (by omega)⟩

/-- Behind the content the block is zero. -/
def Blank (autobuf : Autobuf) : Prop := ∀ i, autobuf.len ≤ i → i < autobuf.size → autobuf.buf i = 0

theorem Blank.enlarge (h : Blank autobuf) (henlarge : autobufEnlarge fresh autobuf n = some autobuf') :
    Blank autobuf' := by
  obtain ⟨hlen, -, -, hkept, hzero⟩ := autobufEnlarge_spec henlarge
  intro i hi hlt
  rw [hlen] at hi
  rcases Nat.lt_or_ge i autobuf.size with hin | hout
  · rw [hkept i hin]
    exact h i hi hin
  · exact hzero i hout hlt

/-- A zero is written behind the text, and what was behind this is there still. -/
theorem write_zero_of_le {buf : Mem} {len i : Nat} {text : List UInt8} (hi : len + text.length ≤ i)
    (hzero : len + text.length < i → buf i = 0) : (buf.write len (text ++ [0])) i = 0 := by
  rcases Nat.eq_or_lt_of_le hi with rfl | hlt
  · exact write_behind_zero ..
  · rw [Mem.write_apply_out (.inr (by simp; omega)), hzero hlt]

theorem Blank.appendf {text : List UInt8} (h : Blank autobuf) (hroom : autobuf.len < autobuf.size)
    (hrun : abufAppendf fresh autobuf text = some autobuf') : Blank autobuf' := by
  obtain ⟨b, hb, rfl⟩ := Option.map_eq_some_iff.1 hrun
  simp only at hb
  intro i (hi : autobuf.len + text.length ≤ i) (hlt : i < b.size)
  split at hb
  · next hfull =>
    obtain ⟨b₁, henlarge, rfl⟩ := Option.map_eq_some_iff.1 hb
    obtain ⟨hlen₁, hroom₁, -, -, hzero₁⟩ := autobufEnlarge_spec henlarge
    simp only at hlen₁ hroom₁ hzero₁ hlt ⊢
    -- what the first attempt has left is written over
    rw [vsnprintf_eq (by omega), hlen₁]
    exact write_zero_of_le hi fun _ => hzero₁ i (by omega) hlt
  · next hfits =>
    obtain rfl := Option.some.inj hb
    simp only at hlt ⊢
    rw [vsnprintf_eq (by omega)]
    exact write_zero_of_le hi fun _ => h i (by omega) hlt

theorem Blank.run (h : Blank autobuf) (hroom : autobuf.len < autobuf.size) (hcall : ∀ n, call ≠ .pull n)
    (hrun : call.run fresh autobuf = some autobuf') : Blank autobuf' := by
  cases call with
  | puts s =>
    cases s with
    | none =>
      obtain rfl := Option.some.inj hrun
      exact h
    | some s =>
      obtain ⟨b, henlarge, hrun⟩ := Option.bind_eq_some_iff.1 hrun
      obtain rfl := Option.some.inj hrun
      exact fun i hi hlt => write_zero_of_le hi fun _ => h.enlarge henlarge i (le_trans (Nat.le_add_right ..) hi) hlt
  | memcpy p =>
    obtain ⟨b, henlarge, hrun⟩ := Option.bind_eq_some_iff.1 hrun
    obtain rfl := Option.some.inj hrun
    intro i (hi : b.len + p.length ≤ i) hlt
    exact (Mem.write_apply_out (.inr hi)).trans (h.enlarge henlarge i (by omega) hlt)
  | memcpyPrefix p =>
    obtain ⟨b, henlarge, hrun⟩ := Option.bind_eq_some_iff.1 hrun
    obtain rfl := Option.some.inj hrun
    intro i (hi : b.len + p.length ≤ i) hlt
    have hmoved : (memmove b.buf p.length 0 b.len) i = b.buf i :=
      Mem.write_apply_out (.inr (by rw [Mem.length_slice]; omega))
    have hbehind : ((memmove b.buf p.length 0 b.len).write 0 p) i = (memmove b.buf p.length 0 b.len) i :=
      Mem.write_apply_out (.inr (by omega))
    exact hbehind.trans (hmoved.trans (h.enlarge henlarge i (by omega) hlt))
  | appendf text => exact h.appendf hroom hrun
  | pull n => exact absurd rfl (hcall n)

/-- In a blank block every call finds its zero, but one that takes bytes away. -/
theorem Blank.endsAtZero (h : Blank autobuf) (hcall : ∀ n, call ≠ .pull n) : call.EndsAtZero autobuf := by
  cases call with
  | puts s => trivial
  | memcpy p => exact fun hlt => h _ (Nat.le_add_right ..) hlt
  | memcpyPrefix p => exact fun hlt => h _ (Nat.le_add_right ..) hlt
  | appendf text => trivial
  | pull n => exact absurd rfl (hcall n)

/-- Every call does to the content what it does to a list; with some it depends on the block whether a zero follows. -/
theorem Contains.run (h : Contains autobuf content) (hvalid : call.Valid autobuf)
    (hrun : call.run fresh autobuf = some autobuf') :
    Contains autobuf' (call.onList content) ∧
    (Terminated autobuf → (Terminated autobuf' ↔ call.EndsAtZero autobuf)) := by
  cases call with
  | puts s =>
    cases s with
    | none =>
      obtain rfl := Option.some.inj hrun
      exact ⟨h, fun ht => iff_of_true ht trivial⟩
    | some s => exact (h.puts hrun).imp_right fun ht _ => iff_of_true ht trivial
  | memcpy p => exact (h.memcpy hrun).imp_right fun hiff _ => hiff
  | memcpyPrefix p => exact (h.memcpyPrefix hrun).imp_right fun hiff _ => hiff
  | appendf text => exact (h.appendf hrun).imp_right fun ht _ => iff_of_true ht trivial
  | pull n => exact (h.pull hvalid hrun).imp_right fun hiff _ => hiff

/-! ## Runs -/

theorem contains_abufInit {initialSize : Nat} (hpos : 0 < initialSize) (h : abufInit fresh initialSize = some autobuf) :
    Contains autobuf [] ∧ Terminated autobuf := by
  unfold abufInit at h
  simp only at h
  split at h
  · obtain rfl := Option.some.inj h
    have hlt := lt_roundUp (initialSize - 1)
    rw [Nat.sub_add_cancel hpos] at hlt
    exact ⟨⟨rfl, Nat.lt_of_le_of_lt (Nat.zero_le _) hlt, rfl⟩, rfl⟩
  · cases h

theorem Called.contains {ok : Autobuf → Call → Prop} {s : Autobuf × List UInt8} (h : Called ok s) :
    Contains s.1 s.2 := by
  refine Run.Reaches.invariant (P := fun s => Contains s.1 s.2) ?_ ?_ h
  · rintro s ⟨fresh, initialSize, hpos, hinit, hnil⟩
    rw [hnil]
    exact (contains_abufInit hpos hinit).1
  · rintro s ⟨fresh, call⟩ s' hcontains ⟨hvalid, -⟩ hstep
    obtain ⟨autobuf, hrun, rfl⟩ := Option.map_eq_some_iff.1 hstep
    exact (hcontains.run hvalid hrun).1

theorem Called.blank {s : Autobuf × List UInt8} (h : Called (fun _ call => ∀ n, call ≠ .pull n) s) :
    Contains s.1 s.2 ∧ Blank s.1 := by
  refine Run.Reaches.invariant (P := fun s => Contains s.1 s.2 ∧ Blank s.1) ?_ ?_ h
  · rintro s ⟨fresh, initialSize, hpos, hinit, hnil⟩
    rw [hnil]
    refine ⟨(contains_abufInit hpos hinit).1, ?_⟩
    unfold abufInit at hinit
    simp only at hinit
    split at hinit
    · rw [← Option.some.inj hinit]
      intro i _ hlt
      refine @write_zero_of_le _ 0 i [] (Nat.zero_le _) fun _ => if_pos ⟨Nat.zero_le _, ?_⟩
      rw [Nat.zero_add]
      exact hlt
    · cases hinit
  · rintro s ⟨fresh, call⟩ s' ⟨hcontains, hblank⟩ ⟨hvalid, hcall⟩ hstep
    obtain ⟨autobuf, hrun, rfl⟩ := Option.map_eq_some_iff.1 hstep
    exact ⟨(hcontains.run hvalid hrun).1, hblank.run hcontains.room hcall hrun⟩

theorem Called.terminated {s : Autobuf × List UInt8} (h : Called (fun autobuf call => call.EndsAtZero autobuf) s) :
    Contains s.1 s.2 ∧ Terminated s.1 := by
  refine Run.Reaches.invariant (P := fun s => Contains s.1 s.2 ∧ Terminated s.1) ?_ ?_ h
  · rintro s ⟨fresh, initialSize, hpos, hinit, hnil⟩
    rw [hnil]
    exact contains_abufInit hpos hinit
  · rintro s ⟨fresh, call⟩ s' ⟨hcontains, hterminated⟩ ⟨hvalid, hzero⟩ hstep
    obtain ⟨autobuf, hrun, rfl⟩ := Option.map_eq_some_iff.1 hstep
    have hnext := hcontains.run hvalid hrun
    exact ⟨hnext.1, (hnext.2 hterminated).2 hzero⟩

/-- The buffer always holds the list; it is a string of C as long as every call ends at a zero, and no longer. All calls
but the one that takes bytes away do so while that one has not been made. -/
theorem called_isString (s : Autobuf × List UInt8) :
    (Called (fun _ _ => True) s → Contains s.1 s.2) ∧
      (Called (fun autobuf call => call.EndsAtZero autobuf) s → Contains s.1 s.2 ∧ Terminated s.1 ∧
        ∀ fresh call autobuf', Call.Valid s.1 call → call.run fresh s.1 = some autobuf' →
          (Terminated autobuf' ↔ call.EndsAtZero s.1)) ∧
      (Called (fun _ call => ∀ n, call ≠ .pull n) s → Terminated s.1 ∧
        ∀ call : Call, (∀ n, call ≠ .pull n) → call.EndsAtZero s.1) := by
  refine ⟨Called.contains, fun h => ?_, fun h => ?_⟩
  · obtain ⟨hcontains, hterminated⟩ := h.terminated
    exact ⟨hcontains, hterminated, fun fresh call autobuf' hvalid hrun => (hcontains.run hvalid hrun).2 hterminated⟩
  · obtain ⟨hcontains, hblank⟩ := h.blank
    exact ⟨hblank _ (le_refl _) hcontains.room, fun call hcall => hblank.endsAtZero hcall⟩

/-- A router name of which a byte was sent. -/
theorem not_called_terminated : ∃ s, Called (fun _ _ => True) s ∧ ¬Terminated s.1 := by
  have h₀ : Called (fun _ _ => True) (⟨4096, 0, (clear (fun _ => 0) 0 4096).write 0 [0]⟩, []) :=
    .init ⟨_, 1, by decide, rfl, rfl⟩
  have h₁ := h₀.step ((fun _ => 0, Call.puts (some [0x61, 0x62])) : Mem × Call) ⟨trivial, trivial⟩ rfl
  have h₂ := h₁.step ((fun _ => 0, Call.pull 1) : Mem × Call) ⟨show 1 ≤ 2 by decide, trivial⟩ rfl
  refine ⟨_, h₂, ?_⟩
  unfold Terminated
  decide

/-- Of two strings with their zeros, the first one was sent. -/
theorem called_isString_pull : ∃ autobuf, Called (fun autobuf call => call.EndsAtZero autobuf) (autobuf, [0x63]) ∧
    Contains autobuf [0x63] ∧ Terminated autobuf := by
  have h₀ : Called (fun autobuf call => call.EndsAtZero autobuf)
      (⟨4096, 0, (clear (fun _ => 0) 0 4096).write 0 [0]⟩, []) := .init ⟨_, 1, by decide, rfl, rfl⟩
  have h₁ := h₀.step ((fun _ => 0, Call.memcpy [0x61, 0, 0x63]) : Mem × Call) ⟨trivial, fun _ => rfl⟩ rfl
  have h₂ := h₁.step ((fun _ => 0, Call.pull 2) : Mem × Call) ⟨show 2 ≤ 3 by decide, fun _ => rfl⟩ rfl
  obtain ⟨hcontains, hterminated, -⟩ := (called_isString _).2.1 h₂
  exact ⟨_, h₂, hcontains, hterminated⟩

end Olsrd.Common
