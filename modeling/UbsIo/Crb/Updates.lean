import UbsIo.Crb.Transfer
import UbsIo.Lib.Overlay

/-! # Updates during a catch-up

    A node serves a partition and a second node recovers it: the task of the
    first reads its buckets, and updates that the first applies go to the
    second as well (`UpdateLocal` at both), where they are applied in the same
    order but as late as they like.  The second is not serviceable, so
    everything that arrives there goes to `Replace`.

    For one key the catch-up has three stages: its bucket has not been read,
    its item is on the way, or its item has arrived (`Stage`).  The updates
    that the second node has still to apply are EARLY when the first had applied
    them before it read the bucket: the item has them already, and to apply
    them again does nothing. -/

namespace UbsIo.Crb.Updates

open UbsIo.Lib UbsIo.Cache UbsIo.Message UbsIo.Server UbsIo.Crb

/-! ## The two nodes -/

/-- An update that the recovering node has not applied yet.  `late` is not in
    the program: the bucket of the key had been read when the update was
    applied at the node that serves. -/
structure Pending where
  item : UpdateItem
  late : Bool

structure Sys where
  serving : Mem
  recovering : Mem
  transfer : Transfer
  /-- The version of the partition. -/
  ptv : UInt64
  updates : List Pending

/-- The second node is empty, and the task is before its first bucket. -/
def Sys.start (r : Route) (m : Mem) (ptv : UInt64) (raw : Bytes) :
    Option Sys := do
  let transfer ← Transfer.start r raw
  some ⟨m, setRecoverStatus init true, transfer, ptv, []⟩

inductive Action where
  /-- The partition gets a new version. -/
  | publish (ptv : UInt64)
  /-- The node that serves applies an update. -/
  | update (item : UpdateItem) (g : Grants)
  /-- The recovering node applies the next update. -/
  | apply (g : Grants)
  | scan (behind : Bytes → Bytes)
  | finish
  | stop
  | deliver (grants : PutItem → Grants)

/-- The entry of a key, if it is one of the partition. -/
def entryIn (r : Route) (m : Mem) (k : Key) : Option Entry :=
  (contents r.source m k).filter fun e => e.ptId = r.taskPtId

def sysStep (r : Route) (s : Sys) : Action → Option Sys
  | .publish ptv => if s.ptv ≤ ptv then some { s with ptv } else none
  | .update item g =>
      if item.version = s.ptv ∧ (entryIn r s.serving item.key).isSome then do
        let (_, m) ← updateItem r.source true r.taskPtId s.serving item g
        let late := decide (Scanned r.source s.transfer.bucketIndex item.key)
        some { s with serving := m, updates := s.updates ++ [⟨item, late⟩] }
      else none
  | .apply g =>
      match s.updates with
      | [] => none
      | u :: rest => do
          let (_, m) ←
            updateItem r.target false r.taskPtId s.recovering u.item g
          some { s with recovering := m, updates := rest }
  | .scan behind =>
      (s.transfer.scan r behind s.serving).map fun transfer =>
        { s with transfer }
  | .finish => (s.transfer.finish r).map fun transfer => { s with transfer }
  | .stop => some { s with transfer := s.transfer.stop }
  | .deliver grants =>
      (s.transfer.deliver r false s.recovering grants).map fun (transfer, m) =>
        { s with transfer, recovering := m }

/-- The last message has arrived, and all updates have been applied. -/
structure Done (s : Sys) : Prop where
  finished : s.transfer.state = .finished
  arrived : s.transfer.sender.sent = []
  applied : s.updates = []

/-- No item of the key is on its way. -/
def Landed (r : Route) (t : Transfer) (k : Key) : Prop :=
  ∀ items, Carried r t items → ∀ item ∈ items, item.key ≠ k

/-- What a step has to meet.  The node that serves takes the update.  The
    recovering one has room for it, and if it is late, the item of the key has
    arrived.  Keys that are read have no zero before their last byte. -/
def Guard (r : Route) (s : Sys) : Action → Prop
  | .update item g =>
      item.version.toNat < 2 ^ 32 ∧
        ¬ NoRoomFor r.source s.serving g item.key item.offset item.value ∧
        ∀ e, contents r.source s.serving item.key = some e →
          item.offset ≤ e.bytes.length
  | .apply g =>
      ∀ u ∈ s.updates.head?,
        ¬ Refused r.target s.recovering g u.item.value ∧
        ¬ NoRoomFor r.target s.recovering g u.item.key u.item.offset
          u.item.value ∧
        (u.late = true → Landed r s.transfer u.item.key)
  | .scan _ => PlainBucket r s.serving s.transfer.bucketIndex
  | _ => True

/-! ## Updates of one entry -/

/-- The bytes and the version of an entry. -/
abbrev Value := Bytes × UInt32

def valueOf (e : Entry) : Value := (e.bytes, e.version)

def writeOf (u : Pending) : Write UInt8 := ⟨u.item.offset, u.item.value⟩

def versionOf (u : Pending) : UInt32 := u.item.version.toUInt32

/-- What `Replace` makes of a value that is there. -/
def overlaid (x : Value) (u : Pending) : Value :=
  if versionOf u < x.2 ∨ x.1.length < u.item.offset then x
  else (overlay x.1 u.item.offset u.item.value, versionOf u)

/-- The value has these updates already. -/
structure Early (x : Value) (us : List Pending) : Prop where
  visible : Visible x.1 (us.map writeOf)
  ordered : (us.map versionOf).Pairwise (· ≤ ·)
  le : ∀ u ∈ us, versionOf u ≤ x.2

/-- What is there is covered by the value when the value is put over it. -/
def Below (x : Value) (o : Option Entry) : Prop :=
  ∀ e, o = some e →
    e.isDelete = false ∧ e.version ≤ x.2 ∧ e.bytes.length ≤ x.1.length

variable {x y : Value} {u : Pending} {us : List Pending} {o : Option Entry}
  {e : Entry} {pt : Nat}

theorem Early.nil (x : Value) : Early x [] := by
  refine ⟨Visible.nil _, List.Pairwise.nil, fun u hu => ?_⟩
  cases hu

theorem Early.tail (h : Early x (u :: us)) : Early x us := by
  have hordered := h.ordered
  rw [List.map_cons, List.pairwise_cons] at hordered
  exact ⟨h.visible.tail, hordered.2,
    fun y hy => h.le y (List.mem_cons_of_mem _ hy)⟩

/-- Once the version is that of the updates, each of them is written. -/
theorem foldl_overlaid : ∀ (us : List Pending) {x : Value},
    (∀ u ∈ us, versionOf u = x.2) →
    (∀ u ∈ us, u.item.offset ≤ x.1.length) →
    us.foldl overlaid x = (writeAll x.1 (us.map writeOf), x.2) := by
  intro us
  induction us with
  | nil => exact fun _ _ => rfl
  | cons u us ih =>
      intro x hver hoff
      have hu := hver u (List.mem_cons_self ..)
      have hin := hoff u (List.mem_cons_self ..)
      have hone : overlaid x u = ((writeOf u).onto x.1, x.2) := by
        have hneither : ¬ (versionOf u < x.2 ∨
            x.1.length < u.item.offset) := by
          rw [hu]
          rintro (hlt | hlt)
          · exact UInt32.lt_irrefl _ hlt
          · omega
        rw [overlaid, if_neg hneither, hu]
        rfl
      have hlonger : x.1.length ≤ ((writeOf u).onto x.1).length := by
        rw [Write.length_onto hin]
        exact Nat.le_max_left ..
      rw [List.foldl_cons, hone]
      exact ih (fun y hy => hver y (List.mem_cons_of_mem _ hy))
        fun y hy => (hoff y (List.mem_cons_of_mem _ hy)).trans hlonger

/-- **EARLY UPDATES**: to apply them again changes nothing.  Those of an older
    version are dropped, and from the first that is not on, all are written. -/
theorem Early.foldl : ∀ (us : List Pending) {x : Value}, Early x us →
    us.foldl overlaid x = x := by
  intro us
  induction us with
  | nil => exact fun _ => rfl
  | cons u us ih =>
      intro x h
      by_cases hold : versionOf u < x.2
      · rw [List.foldl_cons, overlaid, if_pos (Or.inl hold)]
        exact ih h.tail
      have hordered := h.ordered
      rw [List.map_cons, List.pairwise_cons] at hordered
      have hver : ∀ y ∈ u :: us, versionOf y = x.2 := by
        intro y hy
        refine UInt32.le_antisymm (h.le y hy)
          (UInt32.le_trans (UInt32.not_lt.mp hold) ?_)
        rcases List.mem_cons.mp hy with rfl | hy
        · exact UInt32.le_refl _
        · exact hordered.1 _ (List.mem_map_of_mem hy)
      have hoff : ∀ y ∈ u :: us, y.item.offset ≤ x.1.length := by
        intro y hy
        exact (Nat.le_add_right ..).trans
          (h.visible.within _ (List.mem_map_of_mem hy))
      rw [foldl_overlaid _ hver hoff, h.visible.writeAll_eq]

/-- An update that is taken. -/
theorem overlaid_of_taken (hver : x.2 ≤ versionOf u)
    (hoff : u.item.offset ≤ x.1.length) :
    overlaid x u = (overlay x.1 u.item.offset u.item.value, versionOf u) := by
  refine if_neg ?_
  rintro (hlt | hlt)
  · exact absurd hlt (UInt32.not_lt.mpr hver)
  · omega

/-- A value that has been updated has the update as well. -/
theorem Early.update (h : Early x us) (hver : x.2 ≤ versionOf u)
    (hoff : u.item.offset ≤ x.1.length) :
    Early (overlay x.1 u.item.offset u.item.value, versionOf u)
      (us ++ [u]) := by
  have hle : ∀ y ∈ us, versionOf y ≤ versionOf u :=
    fun y hy => UInt32.le_trans (h.le y hy) hver
  constructor
  · rw [List.map_append]
    exact h.visible.onto (w := writeOf u) hoff
  · rw [List.map_append, List.pairwise_append]
    refine ⟨h.ordered, List.pairwise_singleton _ _, ?_⟩
    intro a ha b hb
    obtain ⟨y, hy, rfl⟩ := List.mem_map.mp ha
    rw [List.map_cons, List.map_nil, List.mem_singleton] at hb
    rw [hb]
    exact hle y hy
  · intro y hy
    rcases List.mem_append.mp hy with hy | hy
    · exact hle y hy
    · rw [List.mem_singleton.mp hy]
      exact UInt32.le_refl _

/-! ## Replace at the second node -/

/-- What `Replace` leaves for an update. -/
def replacedBy (pt : Nat) (u : Pending) (o : Option Entry) : Option Entry :=
  replaceEntry u.item.offset u.item.value (versionOf u) pt o

theorem replacedBy_some (pt : Nat) (u : Pending) (hdel : e.isDelete = false) :
    ∃ e', replacedBy pt u (some e) = some e' ∧ e'.isDelete = false ∧
      valueOf e' = overlaid (valueOf e) u := by
  rw [replacedBy, replaceEntry, overlaid]
  by_cases hskip : versionOf u < e.version ∨ e.bytes.length < u.item.offset
  · exact ⟨e, if_pos hskip, hdel, (if_pos hskip).symm⟩
  · exact ⟨_, if_neg hskip, rfl, (if_neg hskip).symm⟩

/-- An early update leaves something below the value. -/
theorem Below.replacedBy (h : Below x o) (hu : Early x (u :: us)) (pt : Nat) :
    Below x (replacedBy pt u o) := by
  have hin : u.item.offset + u.item.value.length ≤ x.1.length :=
    hu.visible.within _ (List.mem_cons_self ..)
  have hver := hu.le u (List.mem_cons_self ..)
  intro e he
  cases o with
  | none =>
      cases he
      exact ⟨rfl, hver, (Nat.le_add_left ..).trans hin⟩
  | some d =>
      obtain ⟨hdel, hdver, hdlen⟩ := h d rfl
      rw [Updates.replacedBy, replaceEntry] at he
      split at he
      · cases he
        exact ⟨hdel, hdver, hdlen⟩
      · rename_i hneither
        cases he
        refine ⟨rfl, hver, ?_⟩
        have hoff : u.item.offset ≤ d.bytes.length := by
          rw [not_or] at hneither
          omega
        show ((writeOf u).onto d.bytes).length ≤ _
        rw [Write.length_onto hoff]
        exact max_le hdlen hin

/-- A value that is put over something below it is what is there then. -/
theorem Below.put (h : Below x o) (pt : Nat) :
    ∃ e, replaceEntry 0 x.1 x.2 pt o = some e ∧ e.isDelete = false ∧
      valueOf e = x := by
  cases o with
  | none => exact ⟨_, rfl, rfl, rfl⟩
  | some d =>
      obtain ⟨hdel, hver, hlen⟩ := h d rfl
      have hneither : ¬ (x.2 < d.version ∨ d.bytes.length < 0) := by
        rintro (hlt | hlt)
        · exact absurd hlt (UInt32.not_lt.mpr hver)
        · exact Nat.not_lt_zero _ hlt
      refine ⟨_, if_neg hneither, rfl, ?_⟩
      rw [valueOf, overlay_eq_data hlen]

/-! ## One key -/

/-- The stages of a key whose value at the first node is `x`: the item on its
    way, the updates to come at the second node, and its entry there. -/
inductive Stage (scanned : Prop) (x : Value) :
    Option Value → List Pending → Option Entry → Prop
  | unread {us : List Pending} {o : Option Entry} (hscan : ¬ scanned)
      (hlate : ∀ u ∈ us, u.late = false) (hearly : Early x us)
      (hbelow : Below x o) : Stage scanned x none us o
  | carried {us us₁ us₂ : List Pending} {o : Option Entry} {y : Value}
      (hscan : scanned) (hparts : us = us₁ ++ us₂)
      (hlate₁ : ∀ u ∈ us₁, u.late = false)
      (hlate₂ : ∀ u ∈ us₂, u.late = true) (hearly : Early y us₁)
      (hbelow : Below y o) (hrest : us₂.foldl overlaid y = x) :
      Stage scanned x (some y) us o
  | landed {us : List Pending} {e : Entry} (hscan : scanned)
      (halive : e.isDelete = false)
      (hrest : us.foldl overlaid (valueOf e) = x) :
      Stage scanned x none us (some e)

variable {scanned : Prop} {snap : Option Value}

/-- The first node applies an update. -/
theorem Stage.update (h : Stage scanned x snap us o)
    (hlate : u.late = true ↔ scanned) (hver : x.2 ≤ versionOf u)
    (hoff : u.item.offset ≤ x.1.length) :
    Stage scanned (overlay x.1 u.item.offset u.item.value, versionOf u) snap
      (us ++ [u]) o := by
  have htaken := overlaid_of_taken hver hoff
  cases h with
  | unread hscan hall hearly hbelow =>
      have hu : u.late = false := by
        rw [← Bool.not_eq_true, hlate]
        exact hscan
      refine .unread hscan ?_ (hearly.update hver hoff) ?_
      · intro y hy
        rcases List.mem_append.mp hy with hy | hy
        · exact hall y hy
        · rw [List.mem_singleton.mp hy]
          exact hu
      · intro e he
        obtain ⟨hdel, hever, helen⟩ := hbelow e he
        refine ⟨hdel, UInt32.le_trans hever hver, helen.trans ?_⟩
        show _ ≤ ((writeOf u).onto x.1).length
        rw [Write.length_onto hoff]
        exact Nat.le_max_left ..
  | carried hscan hparts hall hall' hearly hbelow hrest =>
      refine .carried hscan (by rw [hparts, List.append_assoc]) hall ?_ hearly
        hbelow ?_
      · intro y hy
        rcases List.mem_append.mp hy with hy | hy
        · exact hall' y hy
        · rw [List.mem_singleton.mp hy]
          exact hlate.mpr hscan
      · rw [List.foldl_append, hrest]
        exact htaken
  | landed hscan halive hrest =>
      refine .landed hscan halive ?_
      rw [List.foldl_append, hrest]
      exact htaken

/-- The second node applies the next update: no late one while the item of the
    key is on its way. -/
theorem Stage.apply (h : Stage scanned x snap (u :: us) o)
    (hlate : u.late = true → snap = none) (pt : Nat) :
    Stage scanned x snap us (replacedBy pt u o) := by
  cases h with
  | unread hscan hall hearly hbelow =>
      exact .unread hscan (fun y hy => hall y (List.mem_cons_of_mem _ hy))
        hearly.tail (hbelow.replacedBy hearly pt)
  | landed hscan halive hrest =>
      obtain ⟨e', hsome, halive', hvalue⟩ := replacedBy_some pt u halive
      rw [hsome]
      refine .landed hscan halive' ?_
      rw [hvalue]
      exact hrest
  | @carried _ us₁ us₂ _ y hscan hparts hall hall' hearly hbelow hrest =>
      cases us₁ with
      | nil =>
          rw [List.nil_append] at hparts
          have hu := hall' u (by rw [← hparts]; exact List.mem_cons_self ..)
          cases hlate hu
      | cons w ws =>
          rw [List.cons_append, List.cons.injEq] at hparts
          obtain ⟨rfl, rfl⟩ := hparts
          exact .carried hscan rfl
            (fun y hy => hall y (List.mem_cons_of_mem _ hy)) hall' hearly.tail
            (hbelow.replacedBy hearly pt) hrest

/-- The bucket of the key is read. -/
theorem Stage.read (h : Stage scanned x snap us o) (hnot : ¬ scanned)
    {scanned' : Prop} (hscan : scanned') :
    Stage scanned' x (some x) us o := by
  cases h with
  | unread _ hall hearly hbelow =>
      exact .carried hscan (List.append_nil us).symm hall
        (fun u hu => by cases hu) hearly hbelow rfl
  | carried hyes => exact absurd hyes hnot
  | landed hyes => exact absurd hyes hnot

/-- The item of the key arrives. -/
theorem Stage.arrive (h : Stage scanned x (some y) us o) (pt : Nat) :
    Stage scanned x none us (replaceEntry 0 y.1 y.2 pt o) := by
  cases h with
  | carried hscan hparts hall hall' hearly hbelow hrest =>
      obtain ⟨e, hsome, halive, hvalue⟩ := hbelow.put pt
      rw [hsome]
      refine .landed hscan halive ?_
      rw [hvalue, hparts, List.foldl_append, hearly.foldl]
      exact hrest

theorem Stage.congr (h : Stage scanned x snap us o) {scanned' : Prop}
    (hiff : scanned ↔ scanned') : Stage scanned' x snap us o := by
  rw [← propext hiff]
  exact h

/-- **THE LAST STAGE**: nothing is to come, and the second node has the
    value. -/
theorem Stage.done (h : Stage scanned x none [] o) (hscan : scanned) :
    ∃ e, o = some e ∧ e.isDelete = false ∧ valueOf e = x := by
  cases h with
  | unread hnot => exact absurd hscan hnot
  | landed _ halive hrest => exact ⟨_, rfl, halive, hrest⟩

end UbsIo.Crb.Updates
