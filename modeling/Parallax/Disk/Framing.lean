import Parallax.Bytes.BigEndian
import Parallax.Bytes.Scan
import Parallax.Raft.Types

/-! storage/disk/framing.go: records of the write-ahead log and the frames around them. -/
namespace Parallax.Disk

/-- One bit of the reflected Castagnoli polynomial division. -/
def crcShift (c : UInt32) : UInt32 := if c &&& 1 = 1 then (c >>> 1) ^^^ 0x82f63b78 else c >>> 1

/-- The entry of the `castagnoli` table for the byte `b`. -/
def castagnoli (b : UInt8) : UInt32 := (List.range 8).foldl (fun c _ => crcShift c) b.toUInt32

def checksum (payload : Bytes) : UInt32 :=
  ~~~(payload.foldl (fun crc b => castagnoli (crc.toUInt8 ^^^ b) ^^^ (crc >>> 8)) 0xffffffff)

def frameHeaderSize : Nat := 8

def sanityMaxPayload : Nat := 64 * 2 ^ 20

/-- `recType` tags. -/
def recEntry : UInt8 := 1
def recHardState : UInt8 := 2
def recTruncateSuffix : UInt8 := 3

end Parallax.Disk

namespace Parallax.EntryType

def toByte : EntryType → UInt8
  | .normal => 0
  | .noop => 1
  | .other b => b.1

def ofByte (b : UInt8) : EntryType :=
  if h : 2 ≤ b then .other ⟨b,h⟩ else if b = 0 then .normal else .noop

@[simp] theorem ofByte_toByte (t : EntryType) : ofByte t.toByte = t := by
  cases t with
  | normal => rfl
  | noop => rfl
  | other b => simp [toByte,ofByte,b.2]

end Parallax.EntryType

namespace Parallax.Disk
open BigEndian

def encodeEntry (e : Entry) : Bytes :=
  [recEntry] ++ put 8 e.term ++ put 8 e.index ++ [e.type.toByte] ++ put 4 e.data.length ++ e.data

/-- `none` is errTornFrame. -/
def decodeEntry (body : Bytes) : Option Entry :=
  if body.length < 8 + 8 + 1 + 4 then none
  else
    let dataLen := get ((body.drop 17).take 4)
    if 21 + dataLen ≠ body.length then none
    else some
      { term := get (body.take 8)
        index := get ((body.drop 8).take 8)
        type := .ofByte (body.getD 16 0)
        data := body.drop 21 }

def encodeHardState (st : HardState) : Bytes :=
  [recHardState] ++ put 8 st.term ++ put 8 st.vote ++ put 8 st.commit

def decodeHardState (body : Bytes) : Option HardState :=
  if body.length ≠ 8 + 8 + 8 then none
  else some
    { term := get (body.take 8), vote := get ((body.drop 8).take 8), commit := get ((body.drop 16).take 8) }

def encodeTruncateSuffix (md : SnapshotMetadata) : Bytes :=
  [recTruncateSuffix] ++ put 8 md.index ++ put 8 md.term

def decodeTruncateSuffix (body : Bytes) : Option SnapshotMetadata :=
  if body.length ≠ 8 + 8 then none
  else some { index := get (body.take 8), term := get ((body.drop 8).take 8) }

/-- A framed record: length, checksum, payload. -/
def frame (payload : Bytes) : Bytes :=
  put 4 payload.length ++ put 4 (checksum payload).toNat ++ payload

def appendFrame (dst payload : Bytes) : Bytes := dst ++ frame payload

/-- The payload of the frame at `off` and the bytes it takes; `none` is errTornFrame. -/
def readFrame (buf : Bytes) (off : Nat) : Option (Bytes × Nat) :=
  if off + frameHeaderSize > buf.length then none
  else
    let payloadLen := get ((buf.drop off).take 4)
    let wantCRC := get ((buf.drop (off + 4)).take 4)
    if payloadLen = 0 ∨ payloadLen > sanityMaxPayload then none
    else
      let start := off + frameHeaderSize
      let stop := start + payloadLen
      if stop > buf.length then none
      else
        let p := (buf.drop start).take payloadLen
        if (checksum p).toNat ≠ wantCRC then none else some (p,stop - off)

/-- Numbers of the source are unsigned 64-bit words. -/
abbrev U64 (n : Nat) : Prop := n < 2 ^ 64

theorem get_put_u64 {n : Nat} (h : U64 n) : get (put 8 n) = n := get_put (by rw [show 256 ^ 8 = 2 ^ 64 by norm_num]; exact h)

theorem get_put_u32 {n : Nat} (h : n < 2 ^ 32) : get (put 4 n) = n := get_put (by rw [show 256 ^ 4 = 2 ^ 32 by norm_num]; exact h)

@[simp] theorem length_frame (p : Bytes) : (frame p).length = frameHeaderSize + p.length := by
  simp [frame,frameHeaderSize]
  omega

/-- A payload that a frame may carry. -/
def Fits (p : Bytes) : Prop := 0 < p.length ∧ p.length ≤ sanityMaxPayload

theorem readFrame_whole {p : Bytes} (h : Fits p) (front back : Bytes) :
    readFrame (front ++ (frame p ++ back)) front.length = some (p,(frame p).length) := by
  have hlen : get (put 4 p.length) = p.length := get_put_u32 (by have := h.2; unfold sanityMaxPayload at this; omega)
  have hcrc : get (put 4 (checksum p).toNat) = (checksum p).toNat := get_put_u32 (checksum p).toNat_lt
  have h4 : (front ++ (frame p ++ back)).drop (front.length + 4) = put 4 (checksum p).toNat ++ (p ++ back) := by
    rw [← List.drop_drop,List.drop_left]
    simp [frame,List.drop_left']
  have h8 : (front ++ (frame p ++ back)).drop (front.length + frameHeaderSize) = p ++ back := by
    rw [frameHeaderSize,show front.length + 8 = front.length + 4 + 4 by rfl,← List.drop_drop,h4]
    simp [List.drop_left']
  have h0 : (frame p ++ back).take 4 = put 4 p.length := by
    rw [frame,List.append_assoc,List.append_assoc,List.take_left' (length_put _ _)]
  unfold readFrame
  simp only [List.drop_left,h4,h8,h0,List.take_left' (length_put _ _),hlen,hcrc,List.take_left,List.length_append,
    length_frame]
  rw [if_neg (by omega),if_neg (by have := h.1; have := h.2; omega),if_neg (by omega),if_neg (by simp),
    Nat.add_assoc,Nat.add_sub_cancel_left]

theorem readFrame_cut {p : Bytes} (h : Fits p) (front : Bytes) {k : Nat} (hk : k < (frame p).length) :
    readFrame (front ++ (frame p).take k) front.length = none := by
  unfold readFrame
  rw [List.drop_left]
  by_cases hh : k < 8
  · rw [if_pos (by simp [frameHeaderSize]; omega)]
  have hlen : get (((frame p).take k).take 4) = p.length := by
    rw [List.take_take,min_eq_left (by omega),frame,List.append_assoc,List.take_left' (length_put _ _)]
    exact get_put_u32 (by have := h.2; unfold sanityMaxPayload at this; omega)
  simp only [hlen]
  split
  · rfl
  rw [if_neg (by have := h.1; have := h.2; omega),if_pos]
  simp [frameHeaderSize] at hk ⊢
  omega

/-- Entries that the record format can hold. -/
def EntryFits (e : Entry) : Prop := U64 e.term ∧ U64 e.index ∧ (encodeEntry e).length ≤ sanityMaxPayload

instance (e : Entry) : Decidable (EntryFits e) := inferInstanceAs (Decidable (_ ∧ _ ∧ _))

theorem length_encodeEntry (e : Entry) : (encodeEntry e).length = 22 + e.data.length := by
  simp [encodeEntry]
  omega

theorem decodeEntry_encodeEntry {e : Entry} (h : EntryFits e) : decodeEntry ((encodeEntry e).drop 1) = some e := by
  obtain ⟨ht,hi,hd⟩ := h
  rw [length_encodeEntry] at hd
  have hbody : (encodeEntry e).drop 1 =
      put 8 e.term ++ (put 8 e.index ++ (e.type.toByte :: (put 4 e.data.length ++ e.data))) := by
    simp [encodeEntry]
  have h8 : ((encodeEntry e).drop 1).drop 8 = put 8 e.index ++ (e.type.toByte :: (put 4 e.data.length ++ e.data)) := by
    rw [hbody,List.drop_left' (length_put _ _)]
  have h16 : ((encodeEntry e).drop 1).drop 16 = e.type.toByte :: (put 4 e.data.length ++ e.data) := by
    rw [show 16 = 8 + 8 by rfl,← List.drop_drop,h8,List.drop_left' (length_put _ _)]
  have h17 : ((encodeEntry e).drop 1).drop 17 = put 4 e.data.length ++ e.data := by
    rw [show 17 = 16 + 1 by rfl,← List.drop_drop,h16,List.drop_one,List.tail_cons]
  have h21 : ((encodeEntry e).drop 1).drop 21 = e.data := by
    rw [show 21 = 17 + 4 by rfl,← List.drop_drop,h17,List.drop_left' (length_put _ _)]
  have htype : ((encodeEntry e).drop 1).getD 16 0 = e.type.toByte := by
    rw [List.getD_eq_getElem?_getD,← List.head?_drop,h16]
    rfl
  have hlen : ((encodeEntry e).drop 1).length = 21 + e.data.length := by
    rw [List.length_drop,length_encodeEntry]
    omega
  unfold decodeEntry
  rw [hlen,if_neg (by omega)]
  simp only [h17,List.take_left' (length_put _ _),htype,h21,h8]
  rw [get_put_u32 (by unfold sanityMaxPayload at hd; omega),if_neg (by simp),hbody,List.take_left' (length_put _ _),
    get_put_u64 ht,get_put_u64 hi,EntryType.ofByte_toByte]

theorem decodeHardState_encodeHardState {st : HardState} (ht : U64 st.term) (hv : U64 st.vote) (hc : U64 st.commit) :
    decodeHardState ((encodeHardState st).drop 1) = some st := by
  have hbody : (encodeHardState st).drop 1 = put 8 st.term ++ (put 8 st.vote ++ put 8 st.commit) := by
    simp [encodeHardState]
  have h8 : ((encodeHardState st).drop 1).drop 8 = put 8 st.vote ++ put 8 st.commit := by
    rw [hbody,List.drop_left' (length_put _ _)]
  have h16 : ((encodeHardState st).drop 1).drop 16 = put 8 st.commit := by
    rw [show 16 = 8 + 8 by rfl,← List.drop_drop,h8,List.drop_left' (length_put _ _)]
  unfold decodeHardState
  rw [if_neg (by simp [encodeHardState]),h8,h16,hbody,List.take_left' (length_put _ _),
    List.take_left' (length_put _ _),List.take_of_length_le (by simp),get_put_u64 ht,get_put_u64 hv,get_put_u64 hc]

theorem decodeTruncateSuffix_encodeTruncateSuffix {md : SnapshotMetadata} (hi : U64 md.index) (ht : U64 md.term) :
    decodeTruncateSuffix ((encodeTruncateSuffix md).drop 1) = some md := by
  have hbody : (encodeTruncateSuffix md).drop 1 = put 8 md.index ++ put 8 md.term := by
    simp [encodeTruncateSuffix]
  unfold decodeTruncateSuffix
  rw [if_neg (by simp [encodeTruncateSuffix]),hbody,List.take_left' (length_put _ _),List.drop_left' (length_put _ _),
    List.take_of_length_le (by simp),get_put_u64 hi,get_put_u64 ht]

theorem frames : Scan.Frames frame readFrame Fits where
  pos p h := by
    rw [length_frame]
    have := h.1
    omega
  whole p h front back := readFrame_whole h front back
  short p h front k hk := readFrame_cut h front hk

/-- A frame is read from its own bytes. -/
theorem readFrame_local : Scan.Local readFrame where
  pos := by
    intro data off p n h
    unfold readFrame at h
    dsimp only at h
    split_ifs at h
    cases h
    have : 0 < frameHeaderSize := by decide
    omega
  take := by
    intro data off p n k h hk
    have hcut : ∀ i w, i + w ≤ k → ((data.take k).drop i).take w = (data.drop i).take w := by
      intro i w hi
      rw [List.drop_take,List.take_take,min_eq_left (by omega)]
    unfold readFrame at h ⊢
    dsimp only at h ⊢
    split_ifs at h with h₁ h₂ h₃ h₄
    cases h
    unfold frameHeaderSize at *
    rw [hcut off 4 (by omega),hcut (off + 4) 4 (by omega),hcut (off + 8) _ (by omega),List.length_take,if_neg (by omega),if_neg h₂,
      if_neg (by omega),if_neg h₄]
  extend := by
    intro data off p n k h
    have hcut : ∀ i w, i + w ≤ (data.take k).length → ((data.take k).drop i).take w = (data.drop i).take w := by
      intro i w hi
      rw [List.length_take] at hi
      rw [List.drop_take,List.take_take,min_eq_left (by omega)]
    have hlen : (data.take k).length ≤ data.length := List.length_take_le' ..
    have hk : (data.take k).length ≤ k := List.length_take_le ..
    unfold readFrame at h ⊢
    dsimp only at h ⊢
    split_ifs at h with h₁ h₂ h₃ h₄
    unfold frameHeaderSize at *
    rw [hcut off 4 (by omega),hcut (off + 4) 4 (by omega)] at *
    rw [hcut (off + 8) _ (by omega)] at *
    rw [if_neg (by omega),if_neg h₂,if_neg (by omega),if_neg h₄]
    cases h
    exact ⟨rfl,by omega⟩

end Parallax.Disk
