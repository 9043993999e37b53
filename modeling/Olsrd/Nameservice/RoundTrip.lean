/-
What a receiver learns from the NAME message of a node: the lists after the message are those of a list of entries
received one by one, and which entries get lost on the way.
-/
import Olsrd.Nameservice.Message

namespace Olsrd.Nameservice

open Bytes
open Olsrd.Topology (u16Bytes Holds)

variable {v : IpVersion} {checks : Checks} {platform : Platform} {m : Mem} {e a s : NameEntry}
  {lists before after : NameLists}

/-! ## Entries as they are received -/

/-- What the encoder needs of an entry: a name without a zero that is not too long. -/
structure EntryOk (e : NameEntry) : Prop where
  ip : e.ip.length = 16
  length : e.name.length ≤ maxName
  zero : 0 ∉ e.name
  latlon : e.type ≠ .latlon

/-- The lists of a node, each with entries of its type. -/
structure MyNames.Ok (my : MyNames) : Prop where
  entry : ∀ e ∈ my.announced, EntryOk e
  names : ∀ e ∈ my.names, e.type = .host
  forwarders : ∀ e ∈ my.forwarders, e.type = .forwarder
  services : ∀ e ∈ my.services, e.type = .service
  macs : ∀ e ∈ my.macs, e.type = .macaddr

/-- The receiver's check of the name, and no backslash or apostrophe in it. -/
def Deliverable (checks : Checks) (e : NameEntry) : Bool := checks.wellformed e.type e.name && !e.name.any forbidden

/-- The name is followed by a zero: one that pads it, the type of the next record, or by chance. -/
def terminated (next : UInt8) (e : NameEntry) (rest : List NameEntry) : Bool :=
  e.name.length % 4 != 0 || !rest.isEmpty || next == 0

/-- The lists after one record. -/
def receiveEntry (v : IpVersion) (ok : Bool) (e : NameEntry) (lists : NameLists) : NameLists :=
  if ok then Function.update lists e.type (insertEntry v e (lists e.type)) else lists

/-- The lists after the records of a message that is followed by the byte `next`. -/
def receiveAll (v : IpVersion) (checks : Checks) (next : UInt8) : List NameEntry → NameLists → NameLists
  | [], lists => lists
  | e :: l, lists => receiveAll v checks next l (receiveEntry v (terminated next e l && Deliverable checks e) e lists)

/-- Every type is below 256, so that a record begins with a zero. -/
theorem createPacket_head (e : NameEntry) : (createPacket e).head? = some 0 := by
  cases ht : e.type <;> simp [createPacket, u16Bytes, ht, NameType.toNat]

theorem or_three (n : Nat) : n ||| 3 = 4 * (n / 4) + 3 := by
  have hsplit : (n / 4) <<< 2 ||| n % 4 = n := by
    rw [← Nat.shiftLeft_add_eq_or_of_lt (by omega), Nat.shiftLeft_eq]
    omega
  have hmod : n % 4 ||| 3 = 3 := by
    have hlt : n % 4 < 4 := Nat.mod_lt _ (by decide)
    generalize n % 4 = r at hlt
    interval_cases r <;> rfl
  calc n ||| 3 = ((n / 4) <<< 2 ||| n % 4) ||| 3 := by rw [hsplit]
    _ = (n / 4) <<< 2 ||| 3 := by rw [Nat.or_assoc, hmod]
    _ = 4 * (n / 4) + 3 := by
      rw [← Nat.shiftLeft_add_eq_or_of_lt (by omega), Nat.shiftLeft_eq]
      omega

/-- The receiver's stride is what the encoder wrote. -/
theorem length_createPacket (hok : EntryOk e) {pos : Nat} (hlen : recordLen m pos = e.name.length) :
    (createPacket e).length = recordStride m pos := by
  have hip := hok.ip
  rw [recordStride, hlen]
  by_cases hz : e.name.length = 0
  · simp [createPacket, u16Bytes, sizeofName, hip, hz]
  · rw [if_neg hz, or_three]
    simp [createPacket, u16Bytes, sizeofName, hip]
    omega

/-- What the decoder sees at a record. -/
structure RecordAt (m : Mem) (pos : Nat) (e : NameEntry) : Prop where
  type : recordType m pos = some e.type
  len : recordLen m pos = e.name.length
  entry : recordEntry m pos e.type = e
  strlen : m.strlenIs (pos + sizeofName) e.name.length = (m (pos + sizeofName + e.name.length) == 0)

theorem ofNat?_toNat (type : NameType) : NameType.ofNat? type.toNat = some type := by cases type <;> rfl

theorem recordAt_of_holds (pre post : List UInt8) (hok : EntryOk e) (h : Holds m (pre ++ (createPacket e ++ post))) :
    RecordAt m pre.length e := by
  have hlen : e.name.length < 65536 := Nat.lt_of_le_of_lt hok.length (by decide)
  have htype : recordType m pre.length = some e.type := by
    have hu := Holds.u16 pre (n := e.type.toNat) (u16Bytes e.name.length ++ e.ip ++ e.name ++
      List.replicate ((4 - e.name.length % 4) % 4) 0 ++ post) (by cases e.type <;> decide)
      (by simpa [createPacket] using h)
    rw [recordType, hu, ofNat?_toNat]
  have hrecordLen : recordLen m pre.length = e.name.length := by
    have hu := Holds.u16 (pre ++ u16Bytes e.type.toNat) (n := e.name.length) (e.ip ++ e.name ++
      List.replicate ((4 - e.name.length % 4) % 4) 0 ++ post) hlen (by simpa [createPacket] using h)
    rw [recordLen]
    simpa [u16Bytes] using hu
  have hip : m.slice (pre.length + 4) 16 = e.ip := by
    have hs := Holds.slice (pre ++ u16Bytes e.type.toNat ++ u16Bytes e.name.length) e.ip (e.name ++
      List.replicate ((4 - e.name.length % 4) % 4) 0 ++ post) (by simpa [createPacket] using h)
    rw [hok.ip] at hs
    simpa [u16Bytes] using hs
  have hname : m.slice (pre.length + sizeofName) e.name.length = e.name := by
    have hs := Holds.slice (pre ++ u16Bytes e.type.toNat ++ u16Bytes e.name.length ++ e.ip) e.name
      (List.replicate ((4 - e.name.length % 4) % 4) 0 ++ post) (by simpa [createPacket] using h)
    simpa [u16Bytes, hok.ip, sizeofName] using hs
  refine ⟨htype, hrecordLen, ?_, ?_⟩
  · rw [recordEntry, hrecordLen, hip, hname]
  · have hzero : (m.slice (pre.length + sizeofName) e.name.length).contains 0 = false := by
      rw [hname]
      simpa using hok.zero
    rw [Mem.strlenIs, hzero]
    simp

/-- The byte behind a name in the message. -/
theorem terminated_of_holds (pre : List UInt8) (hok : EntryOk e) {l : List NameEntry}
    (h : Holds m (pre ++ (createPacket e ++ l.flatMap createPacket))) :
    (m (pre.length + sizeofName + e.name.length) == 0) =
      terminated (m (pre ++ (createPacket e ++ l.flatMap createPacket)).length) e l := by
  have hfront : ∀ (x : UInt8) (xs : List UInt8), List.replicate ((4 - e.name.length % 4) % 4) 0 ++ l.flatMap
      createPacket =
        x :: xs → m (pre.length + sizeofName + e.name.length) = x := by
    intro x xs hx
    have hb := Holds.byte (pre ++ u16Bytes e.type.toNat ++ u16Bytes e.name.length ++ e.ip ++ e.name) x xs
      (by simpa [createPacket, ← hx] using h)
    have hlen : (pre ++ u16Bytes e.type.toNat ++ u16Bytes e.name.length ++ e.ip ++ e.name).length =
        pre.length + sizeofName + e.name.length := by
      simp [u16Bytes, hok.ip, sizeofName]
      omega
    rwa [hlen] at hb
  by_cases hpad : e.name.length % 4 = 0
  · cases l with
    | nil =>
      have hend : (pre ++ (createPacket e ++ ([] : List NameEntry).flatMap createPacket)).length =
          pre.length + sizeofName + e.name.length := by
        simp [createPacket, u16Bytes, hok.ip, sizeofName, hpad]
        omega
      rw [hend]
      simp [terminated, hpad]
    | cons a l =>
      -- the first byte of the type of the next record
      obtain ⟨xs, hxs⟩ : ∃ xs, createPacket a = 0 :: xs := by
        have hhead := createPacket_head a
        cases hp : createPacket a with
        | nil => rw [hp] at hhead; cases hhead
        | cons x xs =>
          rw [hp] at hhead
          exact ⟨xs, by rw [Option.some.inj hhead]⟩
      rw [hfront 0 (xs ++ l.flatMap createPacket) (by simp [hpad, hxs])]
      simp [terminated]
  · obtain ⟨k, hk⟩ : ∃ k, (4 - e.name.length % 4) % 4 = k + 1 := ⟨(4 - e.name.length % 4) % 4 - 1, by omega⟩
    rw [hfront 0 (List.replicate k 0 ++ l.flatMap createPacket) (by rw [hk]; rfl)]
    simp [terminated, hpad]

/-- The decoder receives the entries of a message one by one. -/
theorem updateLoop_lists (v : IpVersion) (checks : Checks) (endPos : Nat) :
    ∀ (l : List NameEntry) (pre : List UInt8) (lists : NameLists),
    (∀ e ∈ l, EntryOk e) → Holds m (pre ++ l.flatMap createPacket) →
    (pre ++ l.flatMap createPacket).length ≤ endPos →
    (updateLoop v checks m endPos l.length pre.length lists).1 =
      receiveAll v checks (m (pre ++ l.flatMap createPacket).length) l lists
  | [], _, _, _, _, _ => rfl
  | e :: l, pre, lists, hok, h, hend => by
    have he := hok e (List.mem_cons_self ..)
    rw [List.flatMap_cons] at h hend ⊢
    have hrec := recordAt_of_holds pre (l.flatMap createPacket) he h
    have hstride := length_createPacket he hrec.len
    have hterm := terminated_of_holds pre he h
    have hpos : pre.length < endPos := by
      have : 0 < (createPacket e).length := by simp [createPacket, u16Bytes]
      simp only [List.length_append] at hend
      omega
    have hvalid : recordValid checks m pre.length e.type =
        (terminated (m (pre ++ (createPacket e ++ l.flatMap createPacket)).length) e l && Deliverable checks e) := by
      have hle : recordLen m pre.length ≤ maxName := by
        rw [hrec.len]
        exact he.length
      rw [recordValid, hrec.entry, decide_eq_true hle, hrec.len, hrec.strlen, hterm, Deliverable]
      simp [Bool.and_assoc]
    have hstep : Function.update lists e.type (decapNamemsg v checks m pre.length e.type (lists e.type)) =
        receiveEntry v (terminated (m (pre ++ (createPacket e ++ l.flatMap createPacket)).length) e l &&
          Deliverable checks e) e lists := by
      rw [decapNamemsg, hvalid, hrec.entry, receiveEntry]
      split
      · rfl
      · exact Function.update_eq_self ..
    have hpre : pre.length + recordStride m pre.length = (pre ++ createPacket e).length := by
      rw [List.length_append, hstride]
    have hih := updateLoop_lists v checks endPos l (pre ++ createPacket e)
      (Function.update lists e.type (decapNamemsg v checks m pre.length e.type (lists e.type)))
      (fun a ha => hok a (List.mem_cons_of_mem _ ha)) (by rwa [List.append_assoc]) (by rwa [List.append_assoc])
    rw [← hpre, List.append_assoc] at hih
    rw [List.length_cons, updateLoop, if_pos hpos, hrec.type]
    simp only
    rw [hih, hstep]
    rfl

/-! ## Entries that are saved already -/

/-- The entry is in a list with its name and address. -/
def Saved (v : IpVersion) (e : NameEntry) (names : List NameEntry) : Prop :=
  ∃ s ∈ names, s.name = e.name ∧ sameIp v s e = true

theorem alreadySaved_congr_left (htype : a.type = e.type) (hname : a.name = e.name) (hip : sameIp v a e = true)
    (s : NameEntry) : alreadySaved v a s = alreadySaved v e s := by
  simp only [sameIp, beq_iff_eq] at hip
  unfold alreadySaved
  rw [htype, hname]
  cases e.type <;> simp [sameIp, hip]

theorem alreadySaved_congr_right {s' : NameEntry} (hname : s'.name = s.name) (hip : sameIp v s' s = true)
    (e : NameEntry) : alreadySaved v e s' = alreadySaved v e s := by
  simp only [sameIp, beq_iff_eq] at hip
  unfold alreadySaved
  rw [hname]
  cases e.type <;> simp [sameIp, hip]

theorem deliverable_congr (htype : a.type = e.type) (hname : a.name = e.name) :
    Deliverable checks a = Deliverable checks e := by
  rw [Deliverable, htype, hname, Deliverable]

theorem sameIp_trans {b c : NameEntry} (h : sameIp v a b = true) (h' : sameIp v b c = true) : sameIp v a c = true := by
  simp only [sameIp, beq_iff_eq] at h h' ⊢
  exact h.trans h'

/-- An entry is refused, as it is not valid or blocked by a saved one, or goes to the front of its list. -/
theorem receiveEntry_cases (v : IpVersion) (hl : e.type ≠ .latlon) (ok : Bool) (lists : NameLists) :
    (receiveEntry v ok e lists = lists ∧ (ok = false ∨ ∃ s ∈ lists e.type, alreadySaved v e s = true)) ∨
      (receiveEntry v ok e lists = Function.update lists e.type (e :: lists e.type) ∧ ok = true ∧
        ∀ s ∈ lists e.type, alreadySaved v e s = false) := by
  cases ok with
  | false => exact .inl ⟨rfl, .inl rfl⟩
  | true =>
    rw [receiveEntry, if_pos rfl]
    unfold insertEntry
    rw [if_neg hl]
    by_cases hany : (lists e.type).any (alreadySaved v e) = true
    · rw [if_pos hany, Function.update_eq_self]
      exact .inl ⟨rfl, .inr (List.any_eq_true.1 hany)⟩
    · rw [if_neg hany]
      refine .inr ⟨rfl, rfl, fun s hs => ?_⟩
      rw [← Bool.not_eq_true]
      exact fun hsaved => hany (List.any_eq_true.2 ⟨s, hs, hsaved⟩)

theorem mem_receiveEntry (hl : e.type ≠ .latlon) {ok : Bool} {type : NameType} (h : s ∈ lists type) :
    s ∈ receiveEntry v ok e lists type := by
  rcases receiveEntry_cases v hl ok lists with ⟨heq, -⟩ | ⟨heq, -, -⟩
  · rwa [heq]
  · rw [heq]
    by_cases ht : type = e.type
    · subst ht
      rw [Function.update_self]
      exact List.mem_cons_of_mem _ h
    · rwa [Function.update_of_ne ht]

theorem of_mem_receiveEntry (hl : e.type ≠ .latlon) {ok : Bool} {type : NameType}
    (h : s ∈ receiveEntry v ok e lists type) : s ∈ lists type ∨ s = e ∧ e.type = type := by
  rcases receiveEntry_cases v hl ok lists with ⟨heq, -⟩ | ⟨heq, -, -⟩
  · rw [heq] at h
    exact .inl h
  · rw [heq] at h
    by_cases ht : type = e.type
    · subst ht
      rw [Function.update_self] at h
      rcases List.mem_cons.1 h with rfl | h
      · exact .inr ⟨rfl, rfl⟩
      · exact .inl h
    · rw [Function.update_of_ne ht] at h
      exact .inl h

theorem mem_receiveAll {next : UInt8} {type : NameType} : ∀ {l : List NameEntry} {lists : NameLists},
    (∀ e ∈ l, e.type ≠ .latlon) → s ∈ lists type → s ∈ receiveAll v checks next l lists type
  | [], _, _, h => h
  | e :: l, lists, hl, h => by
    rw [receiveAll]
    exact mem_receiveAll (fun a ha => hl a (List.mem_cons_of_mem _ ha))
      (mem_receiveEntry (hl e (List.mem_cons_self ..)) h)

/-- What is in the lists afterwards was there or was in the message. -/
theorem of_mem_receiveAll {next : UInt8} {type : NameType} : ∀ {l : List NameEntry} {lists : NameLists},
    (∀ e ∈ l, e.type ≠ .latlon) → s ∈ receiveAll v checks next l lists type → s ∈ lists type ∨ s ∈ l
  | [], _, _, h => .inl h
  | e :: l, _, hl, h => by
    rcases of_mem_receiveAll (fun a ha => hl a (List.mem_cons_of_mem _ ha)) h with h | h
    · rcases of_mem_receiveEntry (hl e (List.mem_cons_self ..)) h with h | ⟨rfl, -⟩
      · exact .inl h
      · exact .inr (List.mem_cons_self ..)
    · exact .inr (List.mem_cons_of_mem _ h)

/-! ## Which entries are learned -/

/-- An entry that is not saved and never will be: it is refused or blocked. -/
structure Hopeless (v : IpVersion) (checks : Checks) (e : NameEntry) (lists : NameLists) : Prop where
  unsaved : ¬ Saved v e (lists e.type)
  refused : Deliverable checks e = false ∨ ∃ s ∈ lists e.type, alreadySaved v e s = true

theorem Hopeless.receiveEntry (h : Hopeless v checks e lists) (hl : a.type ≠ .latlon) (ok : Bool) :
    Hopeless v checks e (receiveEntry v (ok && Deliverable checks a) a lists) := by
  refine ⟨?_, h.refused.imp_right fun ⟨s, hs, hblock⟩ => ⟨s, mem_receiveEntry hl hs, hblock⟩⟩
  rintro ⟨s, hs, hname, hip⟩
  rcases receiveEntry_cases v hl (ok && Deliverable checks a) lists with ⟨heq, -⟩ | ⟨heq, hok, hfree⟩
  · rw [heq] at hs
    exact h.unsaved ⟨s, hs, hname, hip⟩
  · rcases of_mem_receiveEntry hl hs with hs | ⟨rfl, htype⟩
    · exact h.unsaved ⟨s, hs, hname, hip⟩
    · -- the entry itself, which is refused for the same reason
      rcases h.refused with hd | ⟨b, hb, hblock⟩
      · rw [deliverable_congr htype hname, hd, Bool.and_false] at hok
        nomatch hok
      · rw [← htype] at hb
        have hfree' := hfree b hb
        rw [alreadySaved_congr_left htype hname hip, hblock] at hfree'
        nomatch hfree'

theorem Hopeless.receiveAll {next : UInt8} : ∀ {l : List NameEntry} {lists : NameLists}, Hopeless v checks e lists →
    (∀ a ∈ l, a.type ≠ .latlon) → Hopeless v checks e (receiveAll v checks next l lists)
  | [], _, h, _ => h
  | a :: l, lists, h, hl => by
    rw [Nameservice.receiveAll]
    exact Hopeless.receiveAll (h.receiveEntry (hl a (List.mem_cons_self ..)) _) fun b hb =>
      hl b (List.mem_cons_of_mem _ hb)

/-- The entries of a type that were there before the message or come earlier in it. -/
def Known (lists : NameLists) (earlier : List NameEntry) (type : NameType) (s : NameEntry) : Prop :=
  s ∈ lists type ∨ s ∈ earlier ∧ s.type = type

/-- The receiver knows the entry already, or its record is sound and no known entry blocks it. -/
def Accepted (v : IpVersion) (checks : Checks) (next : UInt8) (lists : NameLists) (earlier : List NameEntry)
    (e : NameEntry) (later : List NameEntry) : Prop :=
  (∃ s, Known lists earlier e.type s ∧ s.name = e.name ∧ sameIp v s e = true) ∨
    (terminated next e later = true ∧ Deliverable checks e = true ∧
      ∀ s, Known lists earlier e.type s → alreadySaved v e s = false)

/-- Every entry of a message is accepted at its place. -/
def AllAccepted (v : IpVersion) (checks : Checks) (next : UInt8) (lists : NameLists) (l : List NameEntry) : Prop :=
  ∀ earlier e later, l = earlier ++ e :: later → Accepted v checks next lists earlier e later

theorem known_nil {type : NameType} : Known lists [] type s ↔ s ∈ lists type := by simp [Known]

/-- An accepted entry is saved when its record has been read. -/
theorem Accepted.saved {next : UInt8} {l : List NameEntry} (h : Accepted v checks next lists [] e l)
    (hl : e.type ≠ .latlon) :
    Saved v e (receiveEntry v (terminated next e l && Deliverable checks e) e lists e.type) := by
  rcases h with ⟨s, hs, hname, hip⟩ | ⟨hterm, hdel, hfree⟩
  · exact ⟨s, mem_receiveEntry hl (known_nil.1 hs), hname, hip⟩
  · rcases receiveEntry_cases v hl (terminated next e l && Deliverable checks e) lists with ⟨-, hbad⟩ | ⟨heq, -, -⟩
    · rcases hbad with hbad | ⟨s, hs, hblock⟩
      · simp [hterm, hdel] at hbad
      · rw [hfree s (known_nil.2 hs)] at hblock
        nomatch hblock
    · rw [heq, Function.update_self]
      exact ⟨e, List.mem_cons_self .., rfl, by simp [sameIp]⟩

/-- An entry that is saved in the end was accepted. -/
theorem accepted_of_saved {next : UInt8} {l : List NameEntry} (hl : ∀ a ∈ e :: l, a.type ≠ .latlon)
    (h : Saved v e (receiveAll v checks next (e :: l) lists e.type)) : Accepted v checks next lists [] e l := by
  by_contra hno
  rw [Accepted, not_or] at hno
  obtain ⟨hnew, hbad⟩ := hno
  have hunsaved : ¬ Saved v e (lists e.type) := fun ⟨s, hs, hsame⟩ => hnew ⟨s, known_nil.2 hs, hsame⟩
  have he := hl e (List.mem_cons_self ..)
  have hrest : ∀ a ∈ l, a.type ≠ .latlon := fun a ha => hl a (List.mem_cons_of_mem _ ha)
  have hrefused : (terminated next e l && Deliverable checks e) = false ∨
      ∃ s ∈ lists e.type, alreadySaved v e s = true := by
    by_contra hok
    rw [not_or, Bool.not_eq_false, Bool.and_eq_true_iff] at hok
    refine hbad ⟨hok.1.1, hok.1.2, fun s hs => ?_⟩
    rw [← Bool.not_eq_true]
    exact fun hblock => hok.2 ⟨s, known_nil.1 hs, hblock⟩
  rw [receiveAll] at h
  cases l with
  | nil =>
    rcases receiveEntry_cases v he (terminated next e [] && Deliverable checks e) lists with ⟨heq, -⟩ | ⟨-, hok, hfree⟩
    · rw [receiveAll, heq] at h
      exact hunsaved h
    · rcases hrefused with hr | ⟨s, hs, hblock⟩
      · rw [hok] at hr
        nomatch hr
      · rw [hfree s hs] at hblock
        nomatch hblock
  | cons b l =>
    -- the next record ends the name, so that the entry is refused for good
    have hterm : terminated next e (b :: l) = true := by simp [terminated]
    rw [hterm, Bool.true_and] at hrefused
    have hhopeless : Hopeless v checks e lists := ⟨hunsaved, hrefused⟩
    exact ((hhopeless.receiveEntry he _).receiveAll hrest).unsaved h

/-- After an entry that is saved the lists tell the same as the entry and the lists before. -/
theorem accepted_shift {next : UInt8} {ok : Bool} (hl : e.type ≠ .latlon)
    (hsaved : Saved v e (receiveEntry v ok e lists e.type)) (earlier later : List NameEntry) (a : NameEntry) :
    Accepted v checks next (receiveEntry v ok e lists) earlier a later ↔
      Accepted v checks next lists (e :: earlier) a later := by
  have hto : ∀ {s}, Known (receiveEntry v ok e lists) earlier a.type s → Known lists (e :: earlier) a.type s := by
    rintro s (hs | ⟨hs, ht⟩)
    · rcases of_mem_receiveEntry hl hs with hs | ⟨rfl, ht⟩
      · exact .inl hs
      · exact .inr ⟨List.mem_cons_self .., ht⟩
    · exact .inr ⟨List.mem_cons_of_mem _ hs, ht⟩
  -- up to name and address
  have hfrom : ∀ {s}, Known lists (e :: earlier) a.type s → ∃ s', Known (receiveEntry v ok e lists) earlier a.type s' ∧
      s'.name = s.name ∧ sameIp v s' s = true := by
    have hrefl : ∀ s, sameIp v s s = true := fun s => by simp [sameIp]
    rintro s (hs | ⟨hs, ht⟩)
    · exact ⟨s, .inl (mem_receiveEntry hl hs), rfl, hrefl s⟩
    · rcases List.mem_cons.1 hs with rfl | hs
      · obtain ⟨s', hs', hname, hip⟩ := hsaved
        rw [ht] at hs'
        exact ⟨s', .inl hs', hname, hip⟩
      · exact ⟨s, .inr ⟨hs, ht⟩, rfl, hrefl s⟩
  constructor
  · rintro (⟨s, hs, hsame⟩ | ⟨hterm, hdel, hfree⟩)
    · exact .inl ⟨s, hto hs, hsame⟩
    · refine .inr ⟨hterm, hdel, fun s hs => ?_⟩
      obtain ⟨s', hs', hname, hip⟩ := hfrom hs
      rw [← alreadySaved_congr_right hname hip]
      exact hfree s' hs'
  · rintro (⟨s, hs, hname, hip⟩ | ⟨hterm, hdel, hfree⟩)
    · obtain ⟨s', hs', hname', hip'⟩ := hfrom hs
      exact .inl ⟨s', hs', hname'.trans hname, sameIp_trans hip' hip⟩
    · exact .inr ⟨hterm, hdel, fun s hs => hfree s (hto hs)⟩

theorem allAccepted_cons {next : UInt8} {l : List NameEntry} :
    AllAccepted v checks next lists (e :: l) ↔ Accepted v checks next lists [] e l ∧
      ∀ earlier a later, l = earlier ++ a :: later → Accepted v checks next lists (e :: earlier) a later := by
  constructor
  · intro h
    exact ⟨h [] e l rfl, fun earlier a later heq => h (e :: earlier) a later (by rw [heq]; rfl)⟩
  · rintro ⟨hhead, htail⟩ earlier a later heq
    cases earlier with
    | nil =>
      obtain ⟨rfl, rfl⟩ := List.cons.inj heq
      exact hhead
    | cons b earlier =>
      obtain ⟨rfl, hrest⟩ := List.cons.inj heq
      exact htail earlier a later hrest

/-- All entries of a message are saved exactly if all are accepted. -/
theorem receiveAll_saved_iff (next : UInt8) : ∀ {l : List NameEntry} (lists : NameLists),
    (∀ e ∈ l, e.type ≠ .latlon) →
    ((∀ e ∈ l, Saved v e (receiveAll v checks next l lists e.type)) ↔ AllAccepted v checks next lists l)
  | [], _, _ => by simp [AllAccepted]
  | e :: l, lists, hl => by
    have he := hl e (List.mem_cons_self ..)
    have hrest : ∀ a ∈ l, a.type ≠ .latlon := fun a ha => hl a (List.mem_cons_of_mem _ ha)
    have hih := receiveAll_saved_iff next (receiveEntry v (terminated next e l && Deliverable checks e) e lists) hrest
    rw [allAccepted_cons, List.forall_mem_cons]
    constructor
    · rintro ⟨hhead, htail⟩
      have hacc := accepted_of_saved hl hhead
      refine ⟨hacc, fun earlier a later heq => ?_⟩
      exact (accepted_shift he (hacc.saved he) earlier later a).1 (hih.1 htail earlier a later heq)
    · rintro ⟨hacc, htail⟩
      have hsaved := hacc.saved he
      refine ⟨?_, hih.2 fun earlier a later heq => (accepted_shift he hsaved earlier later a).2
        (htail earlier a later heq)⟩
      obtain ⟨s, hs, hsame⟩ := hsaved
      rw [receiveAll]
      exact ⟨s, mem_receiveAll hrest hs, hsame⟩

/-! ## Messages -/

variable {my : MyNames} {hdr : List UInt8}

theorem length_createPacket_ge (hok : EntryOk e) : 20 ≤ (createPacket e).length := by
  simp [createPacket, u16Bytes, hok.ip]

theorem length_flatMap_createPacket : ∀ {l : List NameEntry}, (∀ e ∈ l, EntryOk e) →
    l.length ≤ (l.flatMap createPacket).length
  | [], _ => Nat.le_refl 0
  | e :: l, h => by
    have hrest := length_flatMap_createPacket fun a ha => h a (List.mem_cons_of_mem e ha)
    have hhead := length_createPacket_ge (h e (List.mem_cons_self ..))
    rw [List.flatMap_cons, List.length_append, List.length_cons]
    omega

/-- The lists after the message of a node. -/
theorem updateNameEntry_lists (hmy : my.Ok) (hfits : sentSize v my < 65536) (hptr : platform.sizeofPtr ≤ 8)
    (hhdr : hdr.length = headerSize v) (h : Holds m (hdr ++ encapNamemsg my)) :
    (updateNameEntry v checks platform m (sentSize v my) before).1 =
      receiveAll v checks (m (hdr ++ encapNamemsg my).length) my.announced before := by
  have hsize : (encapNamemsg my).length = 4 + (my.announced.flatMap createPacket).length := by
    simp [encapNamemsg, u16Bytes]
    omega
  have hversion : m.u16 (headerSize v) = 1 := by
    rw [← hhdr]
    exact Holds.u16 hdr (u16Bytes my.announced.length ++ my.announced.flatMap createPacket) (by decide)
      (by simpa [encapNamemsg] using h)
  have hcount : m.u16 (headerSize v + 2) = my.announced.length := by
    have hlt : my.announced.length < 65536 := by
      have hle := length_flatMap_createPacket hmy.entry
      unfold sentSize at hfits
      omega
    have hu := Holds.u16 (hdr ++ u16Bytes 1) (my.announced.flatMap createPacket) hlt (by simpa [encapNamemsg] using h)
    simpa [u16Bytes, hhdr] using hu
  have hpre : headerSize v + sizeofNamemsg = (hdr ++ u16Bytes 1 ++ u16Bytes my.announced.length).length := by
    simp [u16Bytes, hhdr, sizeofNamemsg]
  have hbytes : hdr ++ u16Bytes 1 ++ u16Bytes my.announced.length ++ my.announced.flatMap createPacket =
      hdr ++ encapNamemsg my := by
    simp [encapNamemsg]
  have hloop := updateLoop_lists v checks (endPos v platform.sizeofPtr (sentSize v my))
    my.announced (hdr ++ u16Bytes 1 ++ u16Bytes my.announced.length) before hmy.entry (by rwa [hbytes]) (by
      rw [hbytes, List.length_append, hhdr, endPos, sentSize, sizeofNamemsg]
      cases v <;> simp only [headerSize, sizeofOlsrmsg] <;> omega)
  rw [hbytes, ← hpre] at hloop
  unfold updateNameEntry
  simp only
  rw [if_neg (not_not.2 hversion), hcount]
  exact hloop

/-- What the receiver's lists are to hold after the message of a node. -/
structure Learned (v : IpVersion) (my : MyNames) (before after : NameLists) : Prop where
  complete : ∀ e ∈ my.announced, Saved v e (after e.type)
  sound : ∀ type, ∀ s ∈ after type, s ∈ before type ∨ s ∈ my.announced

theorem learned_iff (hmy : my.Ok) (hfits : sentSize v my < 65536) (hptr : platform.sizeofPtr ≤ 8)
    (hhdr : hdr.length = headerSize v) (h : Holds m (hdr ++ encapNamemsg my)) :
    Learned v my before (updateNameEntry v checks platform m (sentSize v my) before).1 ↔
      AllAccepted v checks (m (hdr ++ encapNamemsg my).length) before my.announced := by
  have hl : ∀ e ∈ my.announced, e.type ≠ .latlon := fun e he => (hmy.entry e he).latlon
  rw [updateNameEntry_lists hmy hfits hptr hhdr h, ← receiveAll_saved_iff _ _ hl]
  exact ⟨fun hlearned => hlearned.complete, fun hsaved => ⟨hsaved, fun _ _ hs => of_mem_receiveAll hl hs⟩⟩

/-! ### A node with host names -/

def hostEntry (name : List UInt8) (last : UInt8) : NameEntry where
  ip := [10, 0, 0, last] ++ List.replicate 12 0
  type := .host
  name := name

def hosts (names : List NameEntry) : MyNames := ⟨names, [], [], []⟩

/-- The header of the message of a node. -/
def nameHeader (my : MyNames) : List UInt8 := [130, 0x86] ++ u16Bytes (sentSize .inet my) ++ [10, 0, 0, 1, 255, 0, 0, 1]

/-- The message of a node in a buffer that is full of ones. -/
def nameMessage (my : MyNames) : Mem := Mem.write (fun _ => 1) 0 (nameHeader my ++ encapNamemsg my)

def listsAfter (my : MyNames) : NameLists :=
  (updateNameEntry .inet anyChecks ⟨true, 8⟩ (nameMessage my) (sentSize .inet my) fun _ => []).1

def abc : NameEntry := hostEntry [0x61, 0x62, 0x63] 1
def abcd : NameEntry := hostEntry [0x61, 0x62, 0x63, 0x64] 2
def abcde : NameEntry := hostEntry [0x61, 0x62, 0x63, 0x64, 0x65] 3

/-- The name abc after abcde, and the name abcd alone, are not learned. -/
theorem hosts_not_learned :
    ¬ Learned .inet (hosts [abcde, abc]) (fun _ => []) (listsAfter (hosts [abcde, abc])) ∧
      ¬ Learned .inet (hosts [abcd]) (fun _ => []) (listsAfter (hosts [abcd])) := by
  constructor
  · intro h
    obtain ⟨s, hs, hname, -⟩ := h.complete abc (by decide)
    have hlist : listsAfter (hosts [abcde, abc]) .host = [abcde] := by decide +kernel
    rw [show abc.type = .host from rfl, hlist] at hs
    obtain rfl := List.mem_singleton.1 hs
    exact absurd hname (by decide)
  · intro h
    obtain ⟨s, hs, -⟩ := h.complete abcd (by decide)
    have hlist : listsAfter (hosts [abcd]) .host = [] := by decide +kernel
    rw [show abcd.type = .host from rfl, hlist] at hs
    cases hs

/-- The name abcd is followed by another record, and abcde comes after the name it begins with. -/
theorem abc_learned :
    Learned .inet (hosts [abc, abcd, abcde]) (fun _ => []) (listsAfter (hosts [abc, abcd, abcde])) := by
  have hok : (hosts [abc, abcd, abcde]).Ok := by
    refine ⟨fun e he => ?_, fun e he => ?_, nofun, nofun, nofun⟩
    · have hmem : e ∈ [abc, abcd, abcde] := he
      fin_cases hmem <;> exact ⟨rfl, by decide, by decide, by decide⟩
    · have hmem : e ∈ [abc, abcd, abcde] := he
      fin_cases hmem <;> rfl
  have hholds : Holds (nameMessage (hosts [abc, abcd, abcde]))
      (nameHeader (hosts [abc, abcd, abcde]) ++ encapNamemsg (hosts [abc, abcd, abcde])) := by
    intro i hi
    have happly : Mem.write (fun _ => 1) 0 _ (0 + i) = _ := Mem.write_apply hi
    rwa [Nat.zero_add] at happly
  refine (learned_iff hok (by decide) (by decide) rfl hholds).2 ?_
  -- the names before an entry do not block it
  have hfree : ∀ earlier e later, [abc, abcd, abcde] = earlier ++ e :: later →
      terminated (nameMessage (hosts [abc, abcd, abcde]) (nameHeader (hosts [abc, abcd, abcde]) ++
        encapNamemsg (hosts [abc, abcd, abcde])).length) e later = true ∧ Deliverable anyChecks e = true ∧
        ∀ s ∈ earlier, alreadySaved .inet e s = false := by
    intro earlier e later heq
    rcases earlier with _ | ⟨a, _ | ⟨b, _ | ⟨c, earlier⟩⟩⟩ <;> simp only [List.cons_append, List.nil_append,
      List.cons.injEq] at heq
    · obtain ⟨rfl, rfl⟩ := heq
      exact ⟨by decide, by decide, nofun⟩
    · obtain ⟨rfl, rfl, rfl⟩ := heq
      exact ⟨by decide, by decide, by decide⟩
    · obtain ⟨rfl, rfl, rfl, rfl⟩ := heq
      exact ⟨by decide, by decide, by decide⟩
    · simp at heq
  intro earlier e later heq
  obtain ⟨hterm, hdel, hblock⟩ := hfree earlier e later heq
  exact .inr ⟨hterm, hdel, fun s hs => hblock s (hs.resolve_left List.not_mem_nil).1⟩

end Olsrd.Nameservice
