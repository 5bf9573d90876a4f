import UbsIo.Message.Outcome

/-! # Requests that are sent again

    `PutLocal`, `UpdateLocal` and `DeleteLocal` store results and addresses
    through the decoded pointers, into the bytes that the CRC covers, and leave
    the CRC as it is.  `SendSingleReq` and `FailHandle` send the same block
    again, and the copies elsewhere read it while it changes.

    A block in use is its header, the images of its items and what is behind
    them; an execution changes the images only. -/

namespace UbsIo.Message

open UbsIo.Lib UbsIo.Cache

variable {c : Config} {kind : Kind}

/-! ## Executions -/

/-- What an execution stores for an item; the address is that of a put. -/
structure Answer where
  result : UInt32
  valueAddr : UInt64
deriving DecidableEq

/-- The stores of `PutLocal`, `UpdateLocal` and `DeleteLocal` for an item. -/
def storeAnswer (kind : Kind) (buff : Bytes) (item : DecodeItem)
    (answer : Answer) : Option Bytes := do
  let buff ← storeResult buff item.resultAt answer.result
  if kind = .put then
    writeAt buff item.valueAddrAt (leBytes 8 answer.valueAddr.toNat)
  else some buff

def storeAnswers (kind : Kind) : Bytes → List DecodeItem → List Answer →
    Option Bytes
  | buff, item :: items, answer :: answers => do
      let buff ← storeAnswer kind buff item answer
      storeAnswers kind buff items answers
  | buff, _, _ => some buff

/-- `PutLocal`, `UpdateLocal` and `DeleteLocal`, as to the block: with what the
    cache answers for its items, if the block can be decoded. -/
def executeLocal (c : Config) (kind : Kind) (reqLen : Nat) (buff : Bytes)
    (answers : List Answer) : Option Bytes := do
  match ← decodeRequest c kind (c.maxItemNum kind) buff reqLen with
  | .error _ => some buff
  | .ok items => storeAnswers kind buff items answers

/-- The block is decoded. -/
def Decodes (c : Config) (kind : Kind) (reqLen : Nat) (buff : Bytes) : Prop :=
  ∃ items, decodeRequest c kind (c.maxItemNum kind) buff reqLen
    = some (.ok items)

/-- An item with what an execution has stored for it. -/
def Slot.answered (kind : Kind) (s : Slot) (answer : Answer) : Slot :=
  { s with
    result := answer.result
    valueAddr := if kind = .put then answer.valueAddr else s.valueAddr }

theorem storeAnswer_image {buff pre post : Bytes} {s : Slot}
    {item : DecodeItem} (answer : Answer)
    (hbuff : buff = pre ++ s.image ++ post)
    (hresult : item.resultAt = pre.length + 16)
    (haddr : item.valueAddrAt = pre.length + 24) :
    storeAnswer kind buff item answer =
      some (pre ++ (s.answered kind answer).image ++ post) := by
  have hstore := storeResult_image answer.result hbuff
  rw [← hresult] at hstore
  simp only [storeAnswer, hstore, Option.bind_eq_bind, Option.bind_some]
  by_cases hput : kind = .put
  · rw [if_pos hput, haddr]
    obtain ⟨s', hs'⟩ : ∃ s', s' = s.withResult answer.result := ⟨_, rfl⟩
    rw [← hs']
    have hcut : pre ++ s'.image ++ post =
        (pre ++ lenWord s'.desc.keyLen s'.desc.valueLen s'.desc.offset ++
          leBytes 8 s'.desc.version.toNat ++
          leBytes 4 s'.desc.result.toNat ++
          leBytes 4 s'.desc.reserved.toNat) ++
        leBytes 8 s'.desc.valueAddr.toNat ++
        (s'.fields.key.bytes ++ [0] ++ s'.fields.value ++ post) := by
      rw [Slot.image, IoLocDesc.bytes]
      simp only [List.append_assoc]
    have hat : (pre ++ lenWord s'.desc.keyLen s'.desc.valueLen
        s'.desc.offset ++ leBytes 8 s'.desc.version.toNat ++
          leBytes 4 s'.desc.result.toNat ++
          leBytes 4 s'.desc.reserved.toNat).length = pre.length + 24 := by
      simp only [List.length_append, length_lenWord, length_leBytes]
    have hwidth : (leBytes 8 s'.desc.valueAddr.toNat).length =
        (leBytes 8 answer.valueAddr.toNat).length := by
      rw [length_leBytes, length_leBytes]
    rw [writeAt_eq _ _ hcut hat hwidth, hs', Slot.image, IoLocDesc.bytes]
    simp only [Slot.answered, if_pos hput, List.append_assoc]
    rfl
  · rw [if_neg hput]
    simp only [Slot.answered, if_neg hput]
    rfl

theorem length_images_congr {l l' : List Slot}
    (h : l'.map Slot.fields = l.map Slot.fields) :
    (images l').length = (images l).length := by
  have hsum : ∀ l : List Slot, (images l).length
      = ((l.map Slot.fields).map Fields.len).sum := by
    intro l
    rw [images, List.length_flatMap, List.map_map]
    exact congrArg List.sum
      (List.map_congr_left fun s _ => s.length_image)
  rw [hsum, hsum, h]

theorem fields_answered (kind : Kind) {l : List Slot} {answers : List Answer}
    (hlen : answers.length = l.length) :
    (l.zipWith (Slot.answered kind) answers).map Slot.fields
      = l.map Slot.fields := by
  induction l generalizing answers with
  | nil => rfl
  | cons s l ih =>
      cases answers with
      | nil => cases hlen
      | cons a answers =>
          rw [List.zipWith_cons_cons, List.map_cons, List.map_cons,
            ih (Nat.succ.inj hlen)]
          rfl

/-- The stores change the images only. -/
theorem storeAnswers_images {post : Bytes} :
    ∀ (l : List Slot) (answers : List Answer) (pre : Bytes),
      answers.length = l.length →
      storeAnswers kind (pre ++ images l ++ post) (decoded pre.length l)
        answers =
        some (pre ++ images (l.zipWith (Slot.answered kind) answers) ++
          post) := by
  intro l
  induction l with
  | nil => exact fun _ _ _ => rfl
  | cons s l ih =>
      intro answers pre hlen
      cases answers with
      | nil => cases hlen
      | cons a answers =>
          have hcut : pre ++ images (s :: l) ++ post =
              pre ++ s.image ++ (images l ++ post) := by
            rw [images_cons]
            simp only [List.append_assoc]
          have hlength : (pre ++ (s.answered kind a).image).length =
              pre.length + s.fields.len := by
            rw [List.length_append, Slot.length_image]
            rfl
          have hrest := ih answers (pre ++ (s.answered kind a).image)
            (Nat.succ.inj hlen)
          rw [hlength] at hrest
          rw [decoded, storeAnswers, storeAnswer_image a hcut rfl rfl]
          simp only [Option.bind_eq_bind, Option.bind_some]
          rw [← List.append_assoc, hrest, List.zipWith_cons_cons,
            images_cons]
          simp only [List.append_assoc]

/-- The CRC stands in the header. -/
theorem readCrc_congr {head tail tail' : Bytes}
    (hhead : head.length = ioDataRequestLen) :
    readCrc (head ++ tail) = readCrc (head ++ tail') := by
  obtain ⟨p, r, rfl, hp⟩ := exists_split
    (show 32 ≤ head.length by rw [hhead]; decide)
  rw [List.length_append, hp, ioDataRequestLen] at hhead
  obtain ⟨x, n, rfl, hx⟩ := exists_split (show 4 ≤ r.length by omega)
  have hread : ∀ t : Bytes, readAt (p ++ (x ++ n) ++ t) crcAt 4 = some x :=
    fun t => readAt_eq p (n ++ t) (by simp only [List.append_assoc]) hp hx
  rw [readCrc, readCrc, hread, hread]

section Block

variable {item : IOCtxItem} {l : List Slot} {head rest : Bytes}

/-- The bytes of the block with these items. -/
def inUse (head rest : Bytes) (l : List Slot) : Bytes :=
  head ++ images l ++ rest

/-- The CRC is still right. -/
def Unnoticed (c : Config) (item : IOCtxItem) (buff : Bytes) : Prop :=
  c.crc32 (crcRange buff item.reqLen)
    = c.crc32 (crcRange item.buff item.reqLen)

/-- A block in use is decoded exactly if its CRC is still right. -/
theorem Finished.decode_inUse (h : Finished c kind item l)
    (hon : c.gCrcSwitch = true) (hbuff : item.buff = inUse head rest l)
    (hhead : head.length = ioDataRequestLen) {l' : List Slot}
    (hl' : l'.map Slot.fields = l.map Slot.fields) :
    (Unnoticed c item (inUse head rest l') ∧
        decodeRequest c kind (c.maxItemNum kind) (inUse head rest l')
          item.reqLen = some (.ok (decoded head.length l'))) ∨
      ¬ Unnoticed c item (inUse head rest l') ∧
        decodeRequest c kind (c.maxItemNum kind) (inUse head rest l')
          item.reqLen = some (.error .crcErr) := by
  have hlen : l'.length = l.length := by
    rw [← List.length_map Slot.fields, hl', List.length_map]
  have hok : ∀ x ∈ l', x.Ok kind := by
    intro x hx
    have hmem : x.fields ∈ l.map Slot.fields := by
      rw [← hl']
      exact List.mem_map_of_mem hx
    obtain ⟨y, hy, hfields⟩ := List.mem_map.mp hmem
    have hoky := h.ok y hy
    exact ⟨hfields ▸ hoky.toSound, hfields ▸ hoky.short⟩
  have hnum : readNum (inUse head rest l') = some l'.length := by
    have hnum := h.num
    rw [hbuff, inUse, List.append_assoc] at hnum
    rw [inUse, List.append_assoc, readNum_congr hhead, hnum, hlen]
  obtain ⟨crc, hcrc, hsame⟩ := h.crc
  have hread : readCrc (inUse head rest l') = some crc := by
    rw [hbuff, inUse, List.append_assoc] at hcrc
    rw [inUse, List.append_assoc, readCrc_congr hhead, hcrc]
  have hmax : ¬ l'.length > c.maxItemNum kind := by
    rw [hlen]
    exact Nat.not_lt.mpr h.length_le
  have hcut : inUse head rest l' = head ++ images l' ++ rest := rfl
  have hloop := decodeLoop_images l' head hcut hok
    (show head.length + (images l').length ≤ item.reqLen by
      rw [length_images_congr hl', hhead, h.reqLen])
  have hat : ioDataRequestLen = head.length := hhead.symm
  by_cases hgood : Unnoticed c item (inUse head rest l')
  · refine .inl ⟨hgood, ?_⟩
    have hright : ¬ (c.gCrcSwitch = true ∧
        crc ≠ c.crc32 (crcRange (inUse head rest l') item.reqLen)) := by
      rintro ⟨-, hne⟩
      exact hne ((hsame hon).trans hgood.symm)
    simp only [decodeRequest, hnum, hread, Option.bind_eq_bind,
      Option.bind_some, if_neg hmax, if_neg hright, hat]
    exact hloop
  · refine .inr ⟨hgood, ?_⟩
    have hwrong : c.gCrcSwitch = true ∧
        crc ≠ c.crc32 (crcRange (inUse head rest l') item.reqLen) :=
      ⟨hon, fun heq => hgood (heq.symm.trans (hsame hon))⟩
    simp only [decodeRequest, hnum, hread, Option.bind_eq_bind,
      Option.bind_some, if_neg hmax, if_pos hwrong]

/-- An execution on a block whose CRC is right. -/
theorem Finished.execute (h : Finished c kind item l)
    (hon : c.gCrcSwitch = true) (hbuff : item.buff = inUse head rest l)
    (hhead : head.length = ioDataRequestLen) {l' : List Slot}
    (hl' : l'.map Slot.fields = l.map Slot.fields)
    (hgood : Unnoticed c item (inUse head rest l')) {answers : List Answer}
    (hlen : answers.length = l'.length) :
    executeLocal c kind item.reqLen (inUse head rest l') answers =
      some (inUse head rest
        (l'.zipWith (Slot.answered kind) answers)) := by
  rcases h.decode_inUse hon hbuff hhead hl' with ⟨-, hdec⟩ | ⟨hbad, -⟩
  · rw [executeLocal, hdec]
    exact storeAnswers_images l' answers head hlen
  · exact absurd hgood hbad

end Block

def gCrcTable : List UInt32 :=
  [0x00000000, 0xF26B8303, 0xE13B70F7, 0x1350F3F4, 0xC79A971F, 0x35F1141C,
   0x26A1E7E8, 0xD4CA64EB, 0x8AD958CF, 0x78B2DBCC, 0x6BE22838, 0x9989AB3B,
   0x4D43CFD0, 0xBF284CD3, 0xAC78BF27, 0x5E133C24, 0x105EC76F, 0xE235446C,
   0xF165B798, 0x030E349B, 0xD7C45070, 0x25AFD373, 0x36FF2087, 0xC494A384,
   0x9A879FA0, 0x68EC1CA3, 0x7BBCEF57, 0x89D76C54, 0x5D1D08BF, 0xAF768BBC,
   0xBC267848, 0x4E4DFB4B, 0x20BD8EDE, 0xD2D60DDD, 0xC186FE29, 0x33ED7D2A,
   0xE72719C1, 0x154C9AC2, 0x061C6936, 0xF477EA35, 0xAA64D611, 0x580F5512,
   0x4B5FA6E6, 0xB93425E5, 0x6DFE410E, 0x9F95C20D, 0x8CC531F9, 0x7EAEB2FA,
   0x30E349B1, 0xC288CAB2, 0xD1D83946, 0x23B3BA45, 0xF779DEAE, 0x05125DAD,
   0x1642AE59, 0xE4292D5A, 0xBA3A117E, 0x4851927D, 0x5B016189, 0xA96AE28A,
   0x7DA08661, 0x8FCB0562, 0x9C9BF696, 0x6EF07595, 0x417B1DBC, 0xB3109EBF,
   0xA0406D4B, 0x522BEE48, 0x86E18AA3, 0x748A09A0, 0x67DAFA54, 0x95B17957,
   0xCBA24573, 0x39C9C670, 0x2A993584, 0xD8F2B687, 0x0C38D26C, 0xFE53516F,
   0xED03A29B, 0x1F682198, 0x5125DAD3, 0xA34E59D0, 0xB01EAA24, 0x42752927,
   0x96BF4DCC, 0x64D4CECF, 0x77843D3B, 0x85EFBE38, 0xDBFC821C, 0x2997011F,
   0x3AC7F2EB, 0xC8AC71E8, 0x1C661503, 0xEE0D9600, 0xFD5D65F4, 0x0F36E6F7,
   0x61C69362, 0x93AD1061, 0x80FDE395, 0x72966096, 0xA65C047D, 0x5437877E,
   0x4767748A, 0xB50CF789, 0xEB1FCBAD, 0x197448AE, 0x0A24BB5A, 0xF84F3859,
   0x2C855CB2, 0xDEEEDFB1, 0xCDBE2C45, 0x3FD5AF46, 0x7198540D, 0x83F3D70E,
   0x90A324FA, 0x62C8A7F9, 0xB602C312, 0x44694011, 0x5739B3E5, 0xA55230E6,
   0xFB410CC2, 0x092A8FC1, 0x1A7A7C35, 0xE811FF36, 0x3CDB9BDD, 0xCEB018DE,
   0xDDE0EB2A, 0x2F8B6829, 0x82F63B78, 0x709DB87B, 0x63CD4B8F, 0x91A6C88C,
   0x456CAC67, 0xB7072F64, 0xA457DC90, 0x563C5F93, 0x082F63B7, 0xFA44E0B4,
   0xE9141340, 0x1B7F9043, 0xCFB5F4A8, 0x3DDE77AB, 0x2E8E845F, 0xDCE5075C,
   0x92A8FC17, 0x60C37F14, 0x73938CE0, 0x81F80FE3, 0x55326B08, 0xA759E80B,
   0xB4091BFF, 0x466298FC, 0x1871A4D8, 0xEA1A27DB, 0xF94AD42F, 0x0B21572C,
   0xDFEB33C7, 0x2D80B0C4, 0x3ED04330, 0xCCBBC033, 0xA24BB5A6, 0x502036A5,
   0x4370C551, 0xB11B4652, 0x65D122B9, 0x97BAA1BA, 0x84EA524E, 0x7681D14D,
   0x2892ED69, 0xDAF96E6A, 0xC9A99D9E, 0x3BC21E9D, 0xEF087A76, 0x1D63F975,
   0x0E330A81, 0xFC588982, 0xB21572C9, 0x407EF1CA, 0x532E023E, 0xA145813D,
   0x758FE5D6, 0x87E466D5, 0x94B49521, 0x66DF1622, 0x38CC2A06, 0xCAA7A905,
   0xD9F75AF1, 0x2B9CD9F2, 0xFF56BD19, 0x0D3D3E1A, 0x1E6DCDEE, 0xEC064EED,
   0xC38D26C4, 0x31E6A5C7, 0x22B65633, 0xD0DDD530, 0x0417B1DB, 0xF67C32D8,
   0xE52CC12C, 0x1747422F, 0x49547E0B, 0xBB3FFD08, 0xA86F0EFC, 0x5A048DFF,
   0x8ECEE914, 0x7CA56A17, 0x6FF599E3, 0x9D9E1AE0, 0xD3D3E1AB, 0x21B862A8,
   0x32E8915C, 0xC083125F, 0x144976B4, 0xE622F5B7, 0xF5720643, 0x07198540,
   0x590AB964, 0xAB613A67, 0xB831C993, 0x4A5A4A90, 0x9E902E7B, 0x6CFBAD78,
   0x7FAB5E8C, 0x8DC0DD8F, 0xE330A81A, 0x115B2B19, 0x020BD8ED, 0xF0605BEE,
   0x24AA3F05, 0xD6C1BC06, 0xC5914FF2, 0x37FACCF1, 0x69E9F0D5, 0x9B8273D6,
   0x88D28022, 0x7AB90321, 0xAE7367CA, 0x5C18E4C9, 0x4F48173D, 0xBD23943E,
   0xF36E6F75, 0x0105EC76, 0x12551F82, 0xE03E9C81, 0x34F4F86A, 0xC69F7B69,
   0xD5CF889D, 0x27A40B9E, 0x79B737BA, 0x8BDCB4B9, 0x988C474D, 0x6AE7C44E,
   0xBE2DA0A5, 0x4C4623A6, 0x5F16D052, 0xAD7D5351]

/-- A byte in `SoftCrc32`; the instructions of `HardCrc32` do the same for
    several bytes. -/
def crcByte (crc : UInt32) (p : UInt8) : UInt32 :=
  (crc >>> 8) ^^^ gCrcTable.getD ((p.toUInt32 ^^^ crc) &&& 0xFF).toNat 0

def softCrc32 (data : Bytes) : UInt32 :=
  ~~~(data.foldl crcByte 0xFFFFFFFF)

/-- `HardCrc32`; only one of the two platforms has the instructions for what
    is left behind the words of 64 bits. -/
def hardCrc32 (hasTail : Bool) (data : Bytes) : UInt32 :=
  if data.length = 0 then 0
  else
    let data := if hasTail then data else data.take (data.length / 8 * 8)
    ~~~(data.foldl crcByte 0xFFFFFFFF)

/-- `MmsCrcUtil::Crc32`. -/
def mmsCrc32 (hasTail : Bool) (data : Bytes) : UInt32 :=
  let crc := hardCrc32 hasTail data
  if crc ≠ 0 then crc else softCrc32 data

/-- The smallest blocks, with CRC. -/
def crcBlocks (hasTail : Bool) : Config :=
  { smallBlocks with gCrcSwitch := true, crc32 := mmsCrc32 hasTail }

theorem zeros_length : (List.replicate 1024 (0 : UInt8)).length = 1024 :=
  List.length_replicate

/-- Blocks of zeros. -/
def zeroBlocks (hasTail : Bool) (n : Nat) :
    Option (RawBlock (crcBlocks hasTail)) :=
  some ⟨n, List.replicate 1024 0, zeros_length⟩

def keyLetter : Key := ⟨[97], letter_nonempty, letter_short⟩

end UbsIo.Message
