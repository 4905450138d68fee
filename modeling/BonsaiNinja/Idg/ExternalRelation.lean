import BonsaiNinja.Library.Merging

namespace BonsaiNinja.Idg
open Library

def readRows : Nat := 2048

def indexStride : Nat := 256

def mib : Nat := 1024 * 1024

def mergePageRows (memoryLimit : Option Nat) (runCount recordBytes maximumRows : Nat) : Nat :=
  let bufferBytes := match memoryLimit with
    | none => 4 * mib
    | some limit => max mib (min (limit / 512) (16 * mib))
  max 1 (min (bufferBytes / max runCount 1 / max recordBytes 1) (max maximumRows 1))

class ExternalRecord (R : Type) extends RowOrder R, RecordCodec R

structure RunEntry where
  offset : Nat
  count : Nat

-- The spool exists once a run has been written.
structure ExternalSorter (R : Type) where
  file : Option (List UInt8)
  writeOffset : Nat
  runs : List RunEntry
  rows : List R
  maxRows : Nat

inductive ExternalRelationStorage (R : Type) where
  | resident (rows : List R)
  | file (bytes : List UInt8)
  | persisted (blob : List UInt8)

structure SortedExternalRelation (R : Type) where
  storage : ExternalRelationStorage R
  len : Nat
  checkpoints : List R

structure PersistedExternalRelation where
  len : Nat
  checkpoints : List UInt8

structure RunReader where
  offset : Nat
  remaining : Nat
  payload : List UInt8
  position : Nat
  pageRows : Nat

structure RunMerger (R : Type) where
  readers : List RunReader
  pending : List (R × Nat)

section
variable {R : Type} [ExternalRecord R] [DecidableEq R]

namespace RunReader

def refill (R : Type) [ExternalRecord R] (file : List UInt8) (reader : RunReader) : Option RunReader :=
  if reader.position = reader.payload.length then do
    let payload ← readAt file reader.offset (min reader.remaining reader.pageRows * width R)
    return { reader with offset := reader.offset + payload.length, payload := payload, position := 0 }
  else some reader

-- A failed read or a record outside the page aborts.
def next (file : List UInt8) (reader : RunReader) : Option (Option R × RunReader) :=
  if reader.remaining = 0 then some (none,reader)
  else do
    let reader ← refill R file reader
    let stop := reader.position + width R
    if stop ≤ reader.payload.length then
      return (some (decode (slice reader.payload reader.position stop)),
        { reader with position := stop, remaining := reader.remaining - 1 })
    else none

end RunReader

namespace RunMerger

def openRun (file : List UInt8) (pageRows : Nat) (merger : RunMerger R) (run : RunEntry × Nat) : Option (RunMerger R) := do
  let (row,reader) ← RunReader.next file ⟨run.1.offset,run.1.count,[],0,pageRows⟩
  return ⟨merger.readers ++ [reader],Merging.requeue row run.2 merger.pending⟩

def new (file : List UInt8) (pageRows : Nat) (runs : List RunEntry) : Option (RunMerger R) :=
  runs.zipIdx.foldlM (openRun file pageRows) ⟨[],[]⟩

def next (file : List UInt8) (merger : RunMerger R) : Option (Option R × RunMerger R) :=
  match merger.pending with
  | [] => some (none,merger)
  | (row,source) :: rest => do
    let reader ← merger.readers[source]?
    let (following,reader) ← RunReader.next file reader
    return (some row,⟨merger.readers.set source reader,Merging.requeue following source rest⟩)

def drain (file : List UInt8) : Nat → RunMerger R → Option (List R)
  | fuel, merger =>
    match merger.pending, fuel with
    | [], _ => some []
    | _ :: _, 0 => none
    | _ :: _, fuel + 1 => do
      let (row,merger) ← next file merger
      let later ← drain file fuel merger
      return row.toList ++ later

end RunMerger

namespace SortedExternalRelation

def resident (rows : List R) : SortedExternalRelation R := ⟨.resident rows,rows.length,stride indexStride rows⟩

def empty : SortedExternalRelation R := resident []

def readExactAt (relation : SortedExternalRelation R) (offset count : Nat) : Option (List UInt8) :=
  if count = 0 then some []
  else
    match relation.storage with
    | .resident rows =>
      let start := offset / width R
      let skip := offset % width R
      let selected := (skip + count + (width R - 1)) / width R
      if start + selected ≤ rows.length then
        some (slice (wire (slice rows start (start + selected))) skip (skip + count))
      else none
    | .file bytes => readAt bytes offset count
    | .persisted blob => readAt blob offset count

def lowerBound (relation : SortedExternalRelation R) (row : R) : Option Nat :=
  match relation.storage with
  | .resident rows => some (partitionPoint (before · row) rows)
  | _ =>
    if relation.len = 0 then some 0
    else do
      let checkpoint := partitionPoint (before · row) relation.checkpoints - 1
      let blockStart := min (checkpoint * indexStride) relation.len
      let blockEnd := min (blockStart + indexStride) relation.len
      let rows := blockEnd - blockStart
      let block ← relation.readExactAt (blockStart * width R) (rows * width R)
      return blockStart + searchBlock (before · row) block rows

def visitRows (visit : σ → R → σ × Bool) : σ → List R → σ × Bool
  | s, [] => (s,true)
  | s, row :: rest =>
    match visit s row with
    | (s,true) => visitRows visit s rest
    | (s,false) => (s,false)

def visitPages (relation : SortedExternalRelation R) (visit : σ → R → σ × Bool) (stop start : Nat) (s : σ) : Option σ :=
  if start < stop then
    let rows := min (stop - start) readRows
    match relation.readExactAt (start * width R) (rows * width R) with
    | none => none
    | some payload =>
      match visitRows visit s (chunksExact payload) with
      | (s,true) => visitPages relation visit stop (start + rows) s
      | (s,false) => some s
  else some s
termination_by stop - start
decreasing_by simp only [readRows]; omega

def visitRange (relation : SortedExternalRelation R) (start stop : Nat) (visit : σ → R → σ) (s : σ) : Option σ :=
  if stop ≤ start then some s
  else
    match relation.storage with
    | .resident rows => if stop ≤ rows.length then some ((slice rows start stop).foldl visit s) else none
    | _ => visitPages relation (fun s row => (visit s row,true)) stop start s

def visitWhile (relation : SortedExternalRelation R) (start : Nat) (visit : σ → R → σ × Bool) (s : σ) : Option σ :=
  if relation.len ≤ start then some s
  else
    match relation.storage with
    | .resident rows => some (visitRows visit s (rows.drop start)).1
    | _ => visitPages relation visit relation.len start s

def persistedMetadata (relation : SortedExternalRelation R) : PersistedExternalRelation :=
  ⟨relation.len,wire relation.checkpoints⟩

def snapshotFrom (relation : SortedExternalRelation R) (offset : Nat) : Option (List UInt8) :=
  let total := relation.len * width R
  if offset < total then
    let take := min (total - offset) mib
    match relation.readExactAt offset take with
    | none => none
    | some page => (snapshotFrom relation (offset + take)).map (page ++ ·)
  else some []
termination_by relation.len * width R - offset
decreasing_by simp only [mib]; omega

def snapshotFile (relation : SortedExternalRelation R) : Option (List UInt8) := relation.snapshotFrom 0

def fromPersisted (metadata : PersistedExternalRelation) (storage : List UInt8) : Except String (SortedExternalRelation R) :=
  let expectedCheckpoints := (metadata.len + (indexStride - 1)) / indexStride
  if metadata.checkpoints.length ≠ expectedCheckpoints * width R ∨ storage.length ≠ metadata.len * width R then
    .error "external relation layout"
  else
    let checkpoints : List R := chunksExact metadata.checkpoints
    if (checkpoints.zip checkpoints.tail).any fun pair => !before pair.1 pair.2 then
      .error "external relation checkpoint ordering"
    else .ok ⟨.persisted storage,metadata.len,checkpoints⟩

end SortedExternalRelation

namespace ExternalSorter

def new (maxRows : Nat) : ExternalSorter R := ⟨none,0,[],[],max maxRows 1⟩

def writeAt (file : List UInt8) (offset : Nat) (payload : List UInt8) : List UInt8 :=
  file.take offset ++ payload ++ file.drop (offset + payload.length)

def flush (sorter : ExternalSorter R) : ExternalSorter R :=
  if sorter.rows.isEmpty then sorter
  else
    let rows := sortDedup sorter.rows
    let payload := wire rows
    { sorter with
      file := some (writeAt (sorter.file.getD []) sorter.writeOffset payload)
      runs := sorter.runs ++ [⟨sorter.writeOffset,rows.length⟩]
      writeOffset := sorter.writeOffset + payload.length
      rows := [] }

def push (sorter : ExternalSorter R) (row : R) : ExternalSorter R :=
  let sorter := { sorter with rows := sorter.rows ++ [row] }
  if sorter.rows.length = sorter.maxRows then sorter.flush else sorter

def finish (memoryLimit : Option Nat) (sorter : ExternalSorter R) : Option (SortedExternalRelation R) :=
  if sorter.runs.isEmpty then some (.resident (sortDedup sorter.rows))
  else do
    let sorter := sorter.flush
    let file ← sorter.file
    let pageRows := mergePageRows memoryLimit sorter.runs.length (width R) readRows
    let merger ← RunMerger.new file pageRows sorter.runs
    let rows ← merger.drain file (sorter.runs.map (·.count)).sum
    let writer := rows.foldl (Merging.RecordWriter.write indexStride) Merging.RecordWriter.empty
    return ⟨.file writer.output,writer.count,writer.checkpoints⟩

end ExternalSorter

end

end BonsaiNinja.Idg
