import UbsIo.Cache.Recover

/-! # What the calls do to one entry

    A call touches the entry of its key and no other.  When its allocations
    succeed, what it leaves there is a function of what was there. -/

namespace UbsIo.Cache

open UbsIo.Lib

variable {L : Layout} {m m' : Mem} {c : SlotId → List Addr} {g : Grants}
  {k : Key}

/-- What `Put` leaves: an entry that is there stays. -/
def putEntry (value : Bytes) (version : UInt32) (ptId : Nat) :
    Option Entry → Option Entry
  | none => some ⟨value, version, false, ptId⟩
  | some e => some e

/-- What `Update` leaves. -/
def updateEntry (offset : Nat) (value : Bytes) (version : UInt32) :
    Option Entry → Option Entry
  | none => none
  | some e =>
      if e.bytes.length < offset then some e
      else some { e with bytes := overlay e.bytes offset value, version }

/-- What `Replace` leaves: a new entry starts with the value, whatever the
    offset is. -/
def replaceEntry (offset : Nat) (value : Bytes) (version : UInt32)
    (ptId : Nat) : Option Entry → Option Entry
  | none => some ⟨value, version, false, ptId⟩
  | some e =>
      if version < e.version ∨ e.bytes.length < offset then some e
      else some
        { e with
          bytes := overlay e.bytes offset value
          version
          isDelete := false }

/-- What `Delete` of a recovering cache leaves of the bytes and the flag. -/
def deletedBytes : Option Entry → Bytes
  | none => []
  | some e => e.bytes

/-- A call that is done: it has returned, the memory is in order, and only the
    entry of the key has changed. -/
def Sets (L : Layout) (m : Mem) (k : Key) (o : Option Entry)
    (res : Option (Reply × Mem)) (m' : Mem) : Prop :=
  (∃ r, res = some (r, m')) ∧ (∃ c', Inv L m' c') ∧
    m'.mIsRecovering = m.mIsRecovering ∧
    contents L m' = Function.update (contents L m) k o

/-- A call that leaves the memory alone sets the entry to what it is. -/
theorem Sets.same (h : Inv L m c) {r : Reply}
    {res : Option (Reply × Mem)} (hres : res = some (r, m)) :
    Sets L m k (contents L m k) res m := by
  refine ⟨⟨r, hres⟩, ⟨c, h⟩, rfl, ?_⟩
  rw [Function.update_eq_self]

theorem put_sets (h : Inv L m c) (para : PutPara)
    (hpos : 0 < para.value.length) (hnot : ¬ Refused L m g para.value) :
    ∃ m', Sets L m para.key
      (putEntry para.value para.version para.ptId (contents L m para.key))
      (put L m g para) m' := by
  rcases put_cases h g para hpos with
    ⟨e, -, -, href⟩ | ⟨hnone, -, m', x, hcall, hinv, hrec, -, hcon⟩ |
    ⟨e, r, hsome, -, hcall, -⟩
  · exact absurd href hnot
  · refine ⟨m', ⟨_, hcall⟩, hinv, hrec, ?_⟩
    rw [hcon, hnone]
    rfl
  · refine ⟨m, ?_⟩
    have hput : putEntry para.value para.version para.ptId
        (contents L m para.key) = contents L m para.key := by
      rw [hsome]
      rfl
    rw [hput]
    exact Sets.same h hcall

theorem update_sets (h : Inv L m c) (para : UpdatePara)
    (hpos : 0 < para.value.length)
    (hroom : ¬ NoRoomFor L m g para.key para.offset para.value) :
    ∃ m', Sets L m para.key
      (updateEntry para.offset para.value para.version
        (contents L m para.key))
      (update L m g para) m' := by
  rcases update_cases h g para hpos with
    ⟨hnone, hcall⟩ | ⟨e, hsome, ⟨hwhy, hcall⟩ |
      ⟨hnot, m', hcall, hinv, hrec, hcon⟩⟩
  · refine ⟨m, ?_⟩
    have hsame : updateEntry para.offset para.value para.version
        (contents L m para.key) = contents L m para.key := by
      rw [hnone]
      rfl
    rw [hsame]
    exact Sets.same h hcall
  · refine ⟨m, ?_⟩
    have hlt : e.bytes.length < para.offset :=
      hwhy.resolve_right hroom
    have hsame : updateEntry para.offset para.value para.version
        (contents L m para.key) = contents L m para.key := by
      rw [hsome, updateEntry, if_pos hlt]
    rw [hsame]
    exact Sets.same h hcall
  · refine ⟨m', ⟨_, hcall⟩, ⟨c, hinv⟩, hrec, ?_⟩
    push Not at hnot
    rw [hcon, hsome, updateEntry, if_neg (Nat.not_lt.mpr hnot.1)]

theorem replace_sets (h : Inv L m c) (para : ReplacePara)
    (hpos : 0 < para.value.length) (hnot : ¬ Refused L m g para.value)
    (hroom : ¬ NoRoomFor L m g para.key para.offset para.value) :
    ∃ m', Sets L m para.key
      (replaceEntry para.offset para.value para.version para.ptId
        (contents L m para.key))
      (replace L m g para) m' := by
  rcases replace_cases h g para hpos with
    ⟨hnone, ⟨href, -⟩ | ⟨-, m', hcall, hinv, hrec, hcon⟩⟩ |
    ⟨e, hsome, ⟨hver, hcall⟩ | ⟨hver, hwhy, hcall⟩ |
      ⟨hver, hfit, m', hcall, hinv, hrec, hcon⟩⟩
  · exact absurd href hnot
  · refine ⟨m', ⟨_, hcall⟩, hinv, hrec, ?_⟩
    rw [hcon, hnone]
    rfl
  · refine ⟨m, ?_⟩
    have hsame : replaceEntry para.offset para.value para.version para.ptId
        (contents L m para.key) = contents L m para.key := by
      rw [hsome, replaceEntry, if_pos (Or.inl hver)]
    rw [hsame]
    exact Sets.same h hcall
  · refine ⟨m, ?_⟩
    have hlt : e.bytes.length < para.offset := hwhy.resolve_right hroom
    have hsame : replaceEntry para.offset para.value para.version para.ptId
        (contents L m para.key) = contents L m para.key := by
      rw [hsome, replaceEntry, if_pos (Or.inr hlt)]
    rw [hsame]
    exact Sets.same h hcall
  · refine ⟨m', ⟨_, hcall⟩, hinv, hrec, ?_⟩
    push Not at hfit
    have hneither : ¬ (para.version < e.version ∨
        e.bytes.length < para.offset) := by
      rintro (hlt | hlt)
      · exact hver hlt
      · exact Nat.not_lt.mpr hfit.1 hlt
    rw [hcon, hsome, replaceEntry, if_neg hneither]

theorem delete_sets (h : Inv L m c) (g : Grants) (k : Key)
    (version : UInt32) (hrec : m.mIsRecovering = false) :
    ∃ m', Sets L m k none (delete L m g k version) m' := by
  rcases delete_cases h g k version hrec with
    ⟨hnone, hcall⟩ | ⟨e, m', hsome, hcall, hinv, hrec', hcon⟩
  · refine ⟨m, ?_⟩
    rw [← hnone]
    exact Sets.same h hcall
  · exact ⟨m', ⟨_, hcall⟩, hinv, hrec', hcon⟩

/-- `Delete` of a recovering cache: the bytes stay, under a mark. -/
theorem delete_sets_mark (h : Inv L m c) (k : Key) (version : UInt32)
    (hrec : m.mIsRecovering = true) (hgrant : indexGrant m g ≠ none) :
    ∃ m' ptId, Sets L m k
      (some ⟨deletedBytes (contents L m k), version, true, ptId⟩)
      (delete L m g k version) m' := by
  rcases delete_recovering_cases h g k version hrec with
    ⟨e, m', hsome, hcall, hinv, hrec', hcon⟩ |
    ⟨hnone, ⟨hno, -⟩ | ⟨m', ptId, hcall, hinv, hrec', hcon⟩⟩
  · refine ⟨m', e.ptId, ⟨_, hcall⟩, hinv, hrec', ?_⟩
    rw [hcon, hsome]
    rfl
  · exact absurd hno hgrant
  · refine ⟨m', ptId, ⟨_, hcall⟩, hinv, hrec', ?_⟩
    rw [hcon, hnone]
    rfl

end UbsIo.Cache
