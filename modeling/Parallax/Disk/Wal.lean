import Mathlib.Data.List.Sort
import Parallax.Disk.Framing
import Parallax.Raft.Storage

/-! storage/disk: disk.go, snapshot.go and wal.go with every file operation succeeding. The
operations are kept in order, so that a crash can fall between any two of them or inside an
append. -/
namespace Parallax.Disk
open BigEndian

/-- The data directory: segments and snapshot files by the number in their zero-padded names,
which sort like the numbers. Temporary files are never read. -/
structure Dir where
  segs : List (Nat × Bytes) := []
  snaps : List (Nat × Bytes) := []
  deriving DecidableEq, Repr

inductive FileOp where
  /-- O_CREATE and fsync of the directory -/
  | create (seq : Nat)
  | append (seq : Nat) (bs : Bytes)
  | truncate (seq size : Nat)
  | remove (seq : Nat)
  /-- rename of a finished temporary file over `snap-<index>.snap` -/
  | install (index : Nat) (bs : Bytes)
  deriving DecidableEq, Repr

namespace Dir

/-- Changes the contents of segment `seq`. -/
def edit (d : Dir) (seq : Nat) (f : Bytes → Bytes) : Dir :=
  { d with segs := d.segs.map fun file => if file.1 = seq then (file.1,f file.2) else file }

def perform (d : Dir) : FileOp → Dir
  | .create seq => if seq ∈ d.segs.map (·.1) then d else { d with segs := d.segs ++ [(seq,[])] }
  | .append seq bs => d.edit seq (· ++ bs)
  | .truncate seq size => d.edit seq (·.take size)
  | .remove seq => { d with segs := d.segs.filter (·.1 ≠ seq) }
  | .install index bs => { d with snaps := d.snaps.filter (·.1 ≠ index) ++ [(index,bs)] }

end Dir

/-- Names in ascending order. -/
def listing (files : List (Nat × Bytes)) : List Nat := (files.map (·.1)).insertionSort (· ≤ ·)

def readFile (files : List (Nat × Bytes)) (n : Nat) : Bytes := ((files.find? (·.1 = n)).map (·.2)).getD []

/-- A crash leaves `d'` of `d` while `ops` are under way. Any bytes of an append may have
reached the file. -/
inductive Cut : List FileOp → Dir → Dir → Prop where
  | now (ops : List FileOp) (d : Dir) : Cut ops d d
  | torn (seq : Nat) (bs : Bytes) (k : Nat) (ops : List FileOp) (d : Dir) :
      Cut (.append seq bs :: ops) d (d.perform (.append seq (bs.take k)))
  | next {op : FileOp} {ops : List FileOp} {d d' : Dir} (h : Cut ops (d.perform op) d') : Cut (op :: ops) d d'

/-- The in-memory copy that serves reads. `snapshotTruncationPending`: the snapshot's truncation
marker has not been seen in the log yet. -/
structure Mirror extends Parallax.Storage where
  snapshotTruncationPending : Bool := false
  deriving DecidableEq, Repr

/-- disk.Storage over its directory. `ops` are the file operations since it was opened. -/
structure Storage where
  dir : Dir := {}
  mirror : Mirror := {}
  buf : Bytes := []
  segSize : Nat := 0
  segSeq : Nat := 0
  ops : List FileOp := []
  deriving DecidableEq, Repr

namespace Storage

def perform (s : Storage) (op : FileOp) : Storage := { s with dir := s.dir.perform op, ops := s.ops ++ [op] }

def offset (s : Storage) : Nat := s.mirror.snapshot.metadata.index

/-- Stores `entries` at the slot of the first one and buffers a record for each. -/
def spliceEntries (s : Storage) (entries : List Entry) : Except StorageErr Storage :=
  match entries with
  | [] => .error .outOfRange
  | first :: _ =>
    let pos := first.index - (s.offset + 1)
    if pos > s.mirror.entries.length then .error .unavailable
    else .ok
      { s with
        mirror := { s.mirror with entries := s.mirror.entries.take pos ++ entries }
        buf := entries.foldl (fun buf e => appendFrame buf (encodeEntry e)) s.buf }

def appendEntries (s : Storage) (entries : List Entry) : Except StorageErr Storage :=
  match entries.head?, entries.getLast? with
  | some first, some last =>
    if last.index ≤ s.offset then .ok s
    else if first.index ≤ s.offset then s.spliceEntries (entries.drop (s.offset + 1 - first.index))
    else s.spliceEntries entries
  | _, _ => .ok s

def setHardState (s : Storage) (st : HardState) : Storage :=
  { s with mirror := { s.mirror with hardState := st }, buf := appendFrame s.buf (encodeHardState st) }

def hardState (s : Storage) : HardState := s.mirror.hardState

def entriesIn (s : Storage) (lo hi : Nat) : Except StorageErr (List Entry) :=
  if lo ≤ s.offset then .error .compacted
  else
    let last := s.offset + s.mirror.entries.length
    if hi > last + 1 then .error .unavailable
    else if lo > hi then .error .unavailable
    else if lo = hi then .ok []
    else .ok ((s.mirror.entries.take (hi - s.offset - 1)).drop (lo - s.offset - 1))

def term (s : Storage) (i : Nat) : Except StorageErr Nat :=
  if i = s.offset then .ok s.mirror.snapshot.metadata.term
  else if i < s.offset then .error .compacted
  else if i > s.offset + s.mirror.entries.length then .error .unavailable
  else match s.mirror.entries[i - s.offset - 1]? with
    | some e => .ok e.term
    | none => .error .outOfRange

def firstIndex (s : Storage) : Nat := s.offset + 1

def lastIndex (s : Storage) : Nat := s.offset + s.mirror.entries.length

def snapshot (s : Storage) : Snapshot := s.mirror.snapshot

def rotateSegment (s : Storage) (seq : Nat) : Storage :=
  { s.perform (.create seq) with segSize := 0, segSeq := seq }

def syncBuffered (maxSegmentSize : Nat) (s : Storage) : Storage :=
  if s.buf.length = 0 then s
  else
    let s := if s.segSize ≥ maxSegmentSize then s.rotateSegment (s.segSeq + 1) else s
    { s.perform (.append s.segSeq s.buf) with segSize := s.segSize + s.buf.length, buf := [] }

def sync (maxSegmentSize : Nat) (s : Storage) : Storage := s.syncBuffered maxSegmentSize

/-- The lines that `ApplySnapshot` and `Open` share: the marker of the current snapshot is
written and no longer pending. -/
def writeMarker (maxSegmentSize : Nat) (s : Storage) : Storage :=
  let s := { s with buf := appendFrame s.buf (encodeTruncateSuffix s.mirror.snapshot.metadata) }
  let s := s.syncBuffered maxSegmentSize
  { s with mirror := { s.mirror with snapshotTruncationPending := false } }

end Storage

def snapshotFlagTruncateSuffix : UInt8 := 1

def snapPayload (snap : Snapshot) (truncateSuffix : Bool) : Bytes :=
  put 8 snap.metadata.index ++ put 8 snap.metadata.term ++ put 4 snap.data.length ++ snap.data ++
    [if truncateSuffix then snapshotFlagTruncateSuffix else 0]

/-- The snapshot and its truncation flag; files without flags are legacy. -/
def parseSnapPayload (payload : Bytes) : Option (Snapshot × Bool) :=
  if payload.length < 20 then none
  else
    let dataLen := get ((payload.drop 16).take 4)
    let dataEnd := 20 + dataLen
    if payload.length ≠ dataEnd ∧ payload.length ≠ dataEnd + 1 then none
    else
      let snap : Snapshot :=
        { metadata := { index := get (payload.take 8), term := get ((payload.drop 8).take 8) }
          data := (payload.drop 20).take dataLen }
      if payload.length = dataEnd + 1 then
        let flags := payload.getD dataEnd 0
        if flags &&& ~~~snapshotFlagTruncateSuffix ≠ 0 then none
        else some (snap,flags &&& snapshotFlagTruncateSuffix != 0)
      else some (snap,false)

def readSnapshotFile (data : Bytes) : Option (Snapshot × Bool) :=
  (readFrame data 0).bind fun found => parseSnapPayload found.1

namespace Storage

def writeSnapshotFile (s : Storage) (snap : Snapshot) (truncateSuffix : Bool) : Storage :=
  s.perform (.install snap.metadata.index (appendFrame [] (snapPayload snap truncateSuffix)))

def applySnapshot (maxSegmentSize : Nat) (s : Storage) (snap : Snapshot) : Except StorageErr Storage :=
  if snap.metadata.index ≤ s.offset then .error .compacted
  else
    let off := s.offset
    let last := off + s.mirror.entries.length
    let retainSuffix := snap.metadata.index < last ∧
      (s.mirror.entries[snap.metadata.index - off - 1]?).map Entry.term = some snap.metadata.term
    let truncateSuffix := snap.metadata.index < last ∧ ¬ retainSuffix
    let s := s.writeSnapshotFile snap truncateSuffix
    let entries := if retainSuffix then s.mirror.entries.drop (snap.metadata.index - off) else []
    let s := { s with
      mirror := { s.mirror with
        entries := entries, snapshot := snap, snapshotTruncationPending := truncateSuffix } }
    if truncateSuffix then .ok (s.writeMarker maxSegmentSize) else .ok s

end Storage

/-- The newest file that reads back; torn ones are skipped. -/
def loadLatestSnapshot (dir : Dir) (m : Mirror) : Mirror :=
  match (listing dir.snaps).reverse.findSome? fun n => readSnapshotFile (readFile dir.snaps n) with
  | some (snap,truncateSuffix) => { m with snapshot := snap, snapshotTruncationPending := truncateSuffix }
  | none => m

namespace Mirror

/-- `none` is a gap in the log. -/
def applyEntryRecord (m : Mirror) (e : Entry) : Option Mirror :=
  if e.index ≤ m.offset then some m
  else
    let pos := e.index - (m.offset + 1)
    if pos > m.entries.length then none
    else some { m with entries := m.entries.take pos ++ [e] }

def truncateSuffix (m : Mirror) (index : Nat) : Mirror :=
  if index ≤ m.offset then { m with entries := [] }
  else
    let keep := index - m.offset
    if keep < m.entries.length then { m with entries := m.entries.take keep } else m

def applyRecord (m : Mirror) (payload : Bytes) : Option Mirror :=
  match payload with
  | [] => none
  | tag :: body =>
    if tag = recEntry then (decodeEntry body).bind m.applyEntryRecord
    else if tag = recHardState then (decodeHardState body).map fun st => { m with hardState := st }
    else if tag = recTruncateSuffix then
      (decodeTruncateSuffix body).map fun md =>
        let m := m.truncateSuffix md.index
        if m.snapshotTruncationPending ∧ md = m.snapshot.metadata then
          { m with snapshotTruncationPending := false }
        else m
    else none

end Mirror

namespace Storage

/-- Every intact record up to the first bad one, where the file is cut; true if it was. -/
def replaySegment (s : Storage) (seq : Nat) : Storage × Bool :=
  let data := readFile s.dir.segs seq
  match Scan.scan readFrame Mirror.applyRecord data (data.length + 1) 0 s.mirror with
  | (m,none) => ({ s with mirror := m },false)
  | (m,some off) => (({ s with mirror := m } : Storage).perform (.truncate seq off),true)

def removeSegments (s : Storage) (seqs : List Nat) : Storage := seqs.foldl (fun s seq => s.perform (.remove seq)) s

/-- The loop over the segments, with those that remain: a torn one is the last. -/
def replaySegments (s : Storage) : List Nat → Storage × List Nat
  | [] => (s,[])
  | seq :: rest =>
    match s.replaySegment seq with
    | (s,true) => (s.removeSegments rest,[seq])
    | (s,false) =>
      let (s,kept) := s.replaySegments rest
      (s,seq :: kept)

def openActiveSegment (s : Storage) (segs : List Nat) : Storage :=
  match segs.getLast? with
  | none => s.rotateSegment 1
  | some seq => { s with segSize := (readFile s.dir.segs seq).length, segSeq := seq }

end Storage

/-- `Open` until the active segment is open. -/
def loadDir (dir : Dir) : Storage :=
  let (s,segs) := ({ dir := dir, mirror := loadLatestSnapshot dir {} } : Storage).replaySegments (listing dir.segs)
  s.openActiveSegment segs

/-- `Open` on the directory `dir`. -/
def openDir (maxSegmentSize : Nat) (dir : Dir) : Storage :=
  let s := loadDir dir
  -- A missing marker: no replayed suffix is valid.
  if s.mirror.snapshotTruncationPending then
    ({ s with mirror := { s.mirror with entries := [] } } : Storage).writeMarker maxSegmentSize
  else s

end Parallax.Disk
