import BonsaiNinja.FactStore.Reader
import BonsaiNinja.FactStore.StringPoolBuilder
import Mathlib.Data.List.Sort

namespace BonsaiNinja.FactStore

open BonsaiNinja.Library BonsaiNinja.Library.Access
open Idg (Text)

structure StorePath where
  parent : List Text
  fileName : Option Text
  deriving DecidableEq

abbrev Files := StorePath → Option (List UInt8)

namespace Files

def remove (files : Files) (path : StorePath) : Files := Function.update files path none

def rename (files : Files) (source target : StorePath) : Files :=
  if source = target then files else Function.update (Function.update files target (files source)) source none

end Files

def numeral (n : Nat) : Text := (toString n).toList

-- `counter` is the value of the process-wide counter at the call.
def uniqueTmpPath (target : StorePath) (pid counter : Nat) : StorePath :=
  match target.fileName with
  | some fileName => {target with
      fileName := some (fileName ++ (".tmp.".toList ++ (numeral pid ++ (".".toList ++ numeral counter))))}
  | none => {target with
      fileName := some (".factstore-tmp-".toList ++ (numeral pid ++ ("-".toList ++ numeral counter)))}

-- A staging file starts with room for the header.
structure PreparedFactStorePayload where
  path : StorePath
  bytes : List UInt8
  headed : headerSize ≤ bytes.length

structure PendingIndexEntry where
  key : UInt64
  bodyHash : UInt64
  payloadOffset : UInt64
  payloadLen : UInt32
  deriving DecidableEq

abbrev PreparedFactStoreEntry := PendingIndexEntry

def tooLarge : FactStoreError := .io (.invalidInput "payload exceeds 4 GiB")

namespace PreparedFactStorePayload

def createNear (files : Files) (target : StorePath) (pid counter : Nat) : Except FactStoreError PreparedFactStorePayload :=
  match files (uniqueTmpPath target pid counter) with
  | some _ => .error (.io (.other "file exists"))
  | none => .ok ⟨uniqueTmpPath target pid counter,List.replicate headerSize 0,by simp⟩

def staged (prepared : PreparedFactStorePayload) (files : Files) : Files :=
  Function.update files prepared.path (some prepared.bytes)

def append (prepared : PreparedFactStorePayload) (payload : List UInt8) :
    Except FactStoreError ((UInt64 × UInt32) × PreparedFactStorePayload) :=
  if payload.length < 2 ^ 32 then
    .ok ((UInt64.ofNat prepared.bytes.length,UInt32.ofNat payload.length),{prepared with
      bytes := prepared.bytes ++ payload
      headed := by rw [List.length_append]; exact le_trans prepared.headed (Nat.le_add_right _ _)})
  else .error tooLarge

-- The staging file moves to the path; a copy between file systems ends the same.
def relocate (prepared : PreparedFactStorePayload) (files : Files) (targetTmp : StorePath) : Files :=
  Function.update (files.remove prepared.path) targetTmp (some prepared.bytes)

end PreparedFactStorePayload

-- An encoder of a streamed entry: it writes, told each time whether the bytes were
-- accepted, until it returns or panics.
inductive StreamEncoder where
  | done
  | failed
  | panicked
  | write (bytes : List UInt8) (next : Bool → StreamEncoder)

inductive EncodeEnd where
  | done
  | failed
  | panicked
  deriving DecidableEq

def u32Max : Nat := 2 ^ 32 - 1

-- The bytes an encoder gets into the file, `written` being in already.
def StreamEncoder.encode : StreamEncoder → Nat → List UInt8 × EncodeEnd
  | done, _ => ([],.done)
  | failed, _ => ([],.failed)
  | panicked, _ => ([],.panicked)
  | write bytes next, written =>
    if u32Max < written + bytes.length then (next false).encode written
    else
      let later := (next true).encode (written + bytes.length)
      (bytes ++ later.1,later.2)

-- What goes through the channel before the writer is finished or dropped.
inductive WriteCmd where
  | entry (key bodyHash : UInt64) (payload : List UInt8)
  | streamEntry (key bodyHash : UInt64) (encode : StreamEncoder)

-- The file of the writer thread, buffered bytes included, and its index so far.
structure ThreadState where
  content : List UInt8
  entries : List PendingIndexEntry
  nextPayloadOffset : Nat
  deriving DecidableEq

-- How the thread stops before it is told to finish.
inductive ThreadEnd where
  | writeError (reason : FactStoreError)
  | streamFailed
  | panicked
  deriving DecidableEq

namespace ThreadState

def append (state : ThreadState) (key bodyHash : UInt64) (payload : List UInt8) : ThreadState where
  content := state.content ++ payload
  entries := state.entries ++ [⟨key,bodyHash,UInt64.ofNat state.nextPayloadOffset,UInt32.ofNat payload.length⟩]
  nextPayloadOffset := state.nextPayloadOffset + payload.length

def process (state : ThreadState) : WriteCmd → Except ThreadEnd ThreadState
  | .entry key bodyHash payload =>
    if payload.length < 2 ^ 32 then .ok (state.append key bodyHash payload) else .error (.writeError tooLarge)
  | .streamEntry key bodyHash encode =>
    match (encode.encode 0).2 with
    | .done => .ok (state.append key bodyHash (encode.encode 0).1)
    | .failed => .error .streamFailed
    | .panicked => .error .panicked

end ThreadState

def sortByKey (entries : List PendingIndexEntry) : List PendingIndexEntry :=
  entries.insertionSort fun a b => a.key.toNat ≤ b.key.toNat

def duplicateKey (sorted : List PendingIndexEntry) : Option UInt64 :=
  ((sorted.zip sorted.tail).find? fun pair => pair.1.key == pair.2.key).map fun pair => pair.1.key

def PendingIndexEntry.onDisk (entry : PendingIndexEntry) : IndexEntry :=
  ⟨entry.key,entry.bodyHash,entry.payloadOffset,entry.payloadLen,0⟩

structure Strings where
  bytes : List UInt8
  offsets : List UInt8
  count : Nat

def trailer (strings : Strings) (sorted : List PendingIndexEntry) : List UInt8 :=
  strings.bytes ++ (strings.offsets ++ sorted.flatMap fun entry => entry.onDisk.toBytes)

def finalHeader (tableId : UInt32) (pipelineHash : UInt64) (payloadSectionEnd entryCount : Nat) (strings : Strings) : Header where
  magic := magicBytes
  formatVersion := formatVersion
  tableId := tableId
  pipelineHash := pipelineHash
  stringPoolOffset := UInt64.ofNat payloadSectionEnd
  stringPoolBytesLen := UInt64.ofNat strings.bytes.length
  stringCount := UInt64.ofNat strings.count
  indexOffset := UInt64.ofNat (payloadSectionEnd + strings.bytes.length + strings.offsets.length)
  indexCount := UInt64.ofNat entryCount
  payloadOffset := UInt64.ofNat headerSize
  payloadLen := UInt64.ofNat (payloadSectionEnd - headerSize)
  reserved := List.replicate 8 0

-- The finished file: the header replaces the bytes kept for it.
def finalContent (tableId : UInt32) (pipelineHash : UInt64) (state : ThreadState) (strings : Strings) : List UInt8 :=
  (finalHeader tableId pipelineHash state.nextPayloadOffset state.entries.length strings).toBytes ++
    (state.content ++ trailer strings (sortByKey state.entries)).drop headerSize

-- The writer with its channel, oldest command first, and its thread.
structure FactStoreWriter where
  targetPath : StorePath
  tmpPath : StorePath
  tableId : UInt32
  pipelineHash : UInt64
  stringPool : StringPoolBuilder
  queue : List WriteCmd
  thread : Except ThreadEnd ThreadState
  files : Files

namespace FactStoreWriter

def checkPrepared (preparedLen : Nat) (entry : PreparedFactStoreEntry) : Except FactStoreError Unit :=
  match checkedAdd entry.payloadOffset.toNat entry.payloadLen.toNat with
  | none => .error (.io (.invalidData "prepared FactStore entry range overflow"))
  | some payloadEnd =>
    if entry.payloadOffset.toNat < headerSize ∨ preparedLen < payloadEnd then
      .error (.io (.invalidData "prepared FactStore entry range is outside the payload file"))
    else .ok ()

def checkAllPrepared (preparedLen : Nat) : List PreparedFactStoreEntry → Except FactStoreError Unit
  | [] => .ok ()
  | entry :: rest =>
    match checkPrepared preparedLen entry with
    | .error reason => .error reason
    | .ok () => checkAllPrepared preparedLen rest

-- A refused staging file is removed as it is dropped.
def createFromPrepared (files : Files) (target tmp : StorePath) (tableId : UInt32) (pipelineHash : UInt64)
    (prepared : PreparedFactStorePayload) (entries : List PreparedFactStoreEntry) :
    Except (FactStoreError × Files) FactStoreWriter :=
  match checkAllPrepared prepared.bytes.length entries with
  | .error reason => .error (reason,files.remove prepared.path)
  | .ok () => .ok {
      targetPath := target
      tmpPath := tmp
      tableId := tableId
      pipelineHash := pipelineHash
      stringPool := .new
      queue := []
      thread := .ok ⟨prepared.bytes,entries,prepared.bytes.length⟩
      files := prepared.relocate files tmp
    }

def create (files : Files) (target : StorePath) (pid counter : Nat) (tableId : UInt32) (pipelineHash : UInt64) :
    Except FactStoreError FactStoreWriter :=
  match PreparedFactStorePayload.createNear files target pid counter with
  | .error reason => .error reason
  | .ok prepared =>
    match createFromPrepared (prepared.staged files) target (uniqueTmpPath target pid (counter + 1)) tableId pipelineHash
      prepared [] with
    | .error refused => .error refused.1
    | .ok writer => .ok writer

-- None stands for a panic, which leaves the pool as it was.
def intern (writer : FactStoreWriter) (s : Text) : Option (UInt32 × FactStoreWriter) :=
  (writer.stringPool.intern s).map fun found => (found.1,{writer with stringPool := found.2})

def send (writer : FactStoreWriter) (command : WriteCmd) : Except FactStoreError FactStoreWriter :=
  match writer.thread with
  | .ok _ => .ok {writer with queue := writer.queue ++ [command]}
  | .error _ => .error (.io (.brokenPipe "factstore writer thread is no longer accepting entries"))

def addOwned (writer : FactStoreWriter) (key bodyHash : UInt64) (payload : List UInt8) : Except FactStoreError FactStoreWriter :=
  if payload.length < 2 ^ 32 then writer.send (.entry key bodyHash payload) else .error tooLarge

def add (writer : FactStoreWriter) (key bodyHash : UInt64) (payload : List UInt8) : Except FactStoreError FactStoreWriter :=
  writer.addOwned key bodyHash payload

def addStreamed (writer : FactStoreWriter) (key bodyHash : UInt64) (encode : StreamEncoder) :
    Except FactStoreError FactStoreWriter :=
  writer.send (.streamEntry key bodyHash encode)

-- The thread takes the oldest command; where it ends, its channel is gone and the
-- temporary file is removed.
def receive (writer : FactStoreWriter) : FactStoreWriter :=
  match writer.thread, writer.queue with
  | .ok state, command :: rest =>
    match state.process command with
    | .ok next => {writer with
        queue := rest
        thread := .ok next
        files := Function.update writer.files writer.tmpPath (some next.content)}
    | .error reason => {writer with
        queue := []
        thread := .error reason
        files := writer.files.remove writer.tmpPath}
  | _, _ => writer

def drain (writer : FactStoreWriter) : FactStoreWriter := writer.queue.foldl (fun writer _ => writer.receive) writer

def drop (writer : FactStoreWriter) : Files := writer.drain.files.remove writer.tmpPath

def finalizeWriter (writer : FactStoreWriter) (state : ThreadState) (strings : Strings) :
    Except (Fault FactStoreError) Nat × Files :=
  match duplicateKey (sortByKey state.entries) with
  | some key => (.error (.error (.duplicateKey key)),writer.files.remove writer.tmpPath)
  | none =>
    (.ok state.entries.length,
      Files.rename (Function.update writer.files writer.tmpPath
        (some (finalContent writer.tableId writer.pipelineHash state strings))) writer.tmpPath writer.targetPath)

def endReport : ThreadEnd → FactStoreError
  | .writeError reason => reason
  | .streamFailed => .io (.other "factstore writer thread exited without reply")
  | .panicked => .io (.other "factstore writer thread panicked")

def finish (writer : FactStoreWriter) : Except (Fault FactStoreError) Nat × Files :=
  match writer.stringPool.offsetsBytes with
  | none => (.error .panic,writer.drop)
  | some offsets =>
    match writer.thread with
    | .error _ => (.error (.error (.io (.brokenPipe "factstore writer thread exited before finish"))),writer.drop)
    | .ok _ =>
      match writer.drain.thread with
      | .error reason => (.error (.error (endReport reason)),writer.drain.files)
      | .ok state => writer.drain.finalizeWriter state ⟨writer.stringPool.bytes,offsets,writer.stringPool.len⟩

end FactStoreWriter

-- What producers and the thread do, in the order in which it takes effect.
inductive Call where
  | intern (s : Text)
  | add (key bodyHash : UInt64) (payload : List UInt8)
  | addStreamed (key bodyHash : UInt64) (encode : StreamEncoder)
  | receive

-- A writer in use, the ids it gave out and the commands it accepted.
structure Session where
  writer : FactStoreWriter
  returned : List (Text × UInt32)
  sent : List WriteCmd

namespace Session

def accept (session : Session) (command : WriteCmd) : Except FactStoreError FactStoreWriter → Session
  | .ok writer => {session with writer := writer, sent := session.sent ++ [command]}
  | .error _ => session

def step (session : Session) : Call → Session
  | .intern s =>
    match session.writer.intern s with
    | some (id,writer) => {session with writer := writer, returned := session.returned ++ [(s,id)]}
    | none => session
  | .add key bodyHash payload => session.accept (.entry key bodyHash payload) (session.writer.add key bodyHash payload)
  | .addStreamed key bodyHash encode =>
    session.accept (.streamEntry key bodyHash encode) (session.writer.addStreamed key bodyHash encode)
  | .receive => {session with writer := session.writer.receive}

def run (writer : FactStoreWriter) (calls : List Call) : Session := calls.foldl step ⟨writer,[],[]⟩

end Session

end BonsaiNinja.FactStore
