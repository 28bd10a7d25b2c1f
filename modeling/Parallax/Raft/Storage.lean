import Parallax.Raft.Types

/-! `LogStorage` with the semantics of mem.Storage: the durable state the core reads
and the driver writes. The mirror that disk.Storage keeps in memory has these fields. -/
namespace Parallax

/-- `entries[i]` holds the entry at index `snapshot.metadata.index + 1 + i`. -/
structure Storage where
  hardState : HardState := {}
  snapshot : Snapshot := {}
  entries : List Entry := []
  deriving DecidableEq, Repr

namespace Storage

/-- Index of the last entry covered by the snapshot. -/
def offset (s : Storage) : Nat := s.snapshot.metadata.index

/-- Stores `entries` from slot `first - (off + 1)` on, cutting the old suffix there. -/
def splice (s : Storage) (entries : List Entry) : Except StorageErr Storage :=
  match entries with
  | [] => .error .outOfRange
  | e :: _ =>
    let pos := e.index - (s.offset + 1)
    if pos > s.entries.length then .error .unavailable
    else .ok { s with entries := s.entries.take pos ++ entries }

def appendEntries (s : Storage) (entries : List Entry) : Except StorageErr Storage :=
  match entries.head?, entries.getLast? with
  | some first, some last =>
    if last.index ≤ s.offset then .ok s
    else if first.index ≤ s.offset then s.splice (entries.drop (s.offset + 1 - first.index))
    else s.splice entries
  | _, _ => .ok s

def setHardState (s : Storage) (st : HardState) : Storage := { s with hardState := st }

/-- Entries in `[lo, hi)`; `entries` is the stored slice itself. -/
def entriesIn (s : Storage) (lo hi : Nat) : Except StorageErr (List Entry) :=
  if lo ≤ s.offset then .error .compacted
  else if hi > s.offset + s.entries.length + 1 then .error .unavailable
  else if lo > hi then .error .unavailable
  else if lo = hi then .ok []
  else .ok ((s.entries.take (hi - s.offset - 1)).drop (lo - s.offset - 1))

def term (s : Storage) (i : Nat) : Except StorageErr Nat :=
  if i = s.offset then .ok s.snapshot.metadata.term
  else if i < s.offset then .error .compacted
  else if i > s.offset + s.entries.length then .error .unavailable
  else match s.entries[i - s.offset - 1]? with
    | some e => .ok e.term
    | none => .error .outOfRange

def firstIndex (s : Storage) : Nat := s.offset + 1

def lastIndex (s : Storage) : Nat := s.offset + s.entries.length

/-- A matching boundary keeps the suffix; a term mismatch drops all of it. -/
def applySnapshot (s : Storage) (snap : Snapshot) : Except StorageErr Storage :=
  if snap.metadata.index ≤ s.offset then .error .compacted
  else
    let last := s.offset + s.entries.length
    if snap.metadata.index < last ∧
        (s.entries[snap.metadata.index - s.offset - 1]?).map Entry.term = some snap.metadata.term then
      .ok { s with entries := s.entries.drop (snap.metadata.index - s.offset), snapshot := snap }
    else .ok { s with entries := [], snapshot := snap }

/-- Discards entries through `index`; only the metadata of the snapshot follows. -/
def compact (s : Storage) (index : Nat) : Except StorageErr Storage :=
  if index ≤ s.offset then .error .compacted
  else if index > s.offset + s.entries.length then .error .unavailable
  else match s.entries[index - s.offset - 1]? with
    | none => .error .outOfRange
    | some e =>
      .ok { s with
        entries := s.entries.drop (index - s.offset)
        snapshot := { s.snapshot with metadata := { index := index, term := e.term } } }

end Storage
end Parallax
