import BonsaiNinja.Idg.QueryCore

namespace BonsaiNinja.Idg
open Library Decoder

def usizeMax : Nat := 2 ^ 64 - 1
def isizeMax : Nat := 2 ^ 63 - 1

def idgQueryAcceleratorVersion : Nat := 7
-- The bytes of `BNSIQC01`.
def idgQueryCoreMagic : List UInt8 := [66,78,83,73,81,67,48,49]
def idgQueryCoreCountFields : Nat := 12
def idgQueryCoreHeaderBytes : Nat := 8 + 4 + 1 + 3 + 4 + idgQueryCoreCountFields * 8
def valuesPerPage : Nat := 16 * 1024

structure PersistedQueryAccelerator extends QueryCore where
  version : Nat
  segmentCount : Nat

def readCoreU32 : Decoder Nat := do
  let bytes ← readExact 4
  return leValue bytes

def readCoreU64 : Decoder Nat := do
  let bytes ← readExact 8
  return leValue bytes

def words : List UInt8 → List Nat
  | a :: b :: c :: d :: bytes => leValue [a,b,c,d] :: words bytes
  | _ => []

def readPages (remaining : Nat) : Decoder (List Nat) :=
  if remaining = 0 then pure []
  else do
    let rows := min remaining valuesPerPage
    let payload ← readExact (rows * 4)
    let later ← readPages (remaining - rows)
    return words payload ++ later
termination_by remaining
decreasing_by
  unfold valuesPerPage
  omega

-- The page buffer beside the values has a fixed size.
def readCoreU32Values (count : Nat) : Decoder (List Nat) := do
  reserve isizeMax (count * 4) (count * 4)
  readPages count

def readCoreBytes (count : Nat) : Decoder (List Nat) := do
  reserve isizeMax count count
  let values ← readExact count
  return values.map UInt8.toNat

def readCoreSpan : Decoder Span := do
  let file ← readCoreU32
  let start ← readCoreU64
  let stop ← readCoreU64
  return ⟨file,start,stop⟩

-- A span takes 24 bytes in memory.
def readCoreSpans (count : Nat) : Decoder (List Span) := do
  reserve isizeMax (count * 24) (count * 20)
  readTimes readCoreSpan count

def checkedU64 (value : Nat) : Option Nat := if value < 2 ^ 64 then some value else none

def coreWidths : List Nat := [4,4,4,1,1,4,4,4,20,4,4,4]

def expectedBytes (counts : List Nat) : Option Nat :=
  (counts.zip coreWidths).foldlM (fun total row => do
    let bytes ← checkedU64 (row.1 * row.2)
    checkedU64 (total + bytes)) idgQueryCoreHeaderBytes

def readHeader (encodedBytes : Nat) : Decoder (Nat × Nat × List Nat) := do
  let magic ← readExact 8
  if magic ≠ idgQueryCoreMagic then
    halt (.invalid "workspace IDG query accelerator core magic mismatch")
  else
    let version ← readCoreU32
    let reserved ← readExact 4
    if reserved ≠ [0,0,0,0] then
      halt (.invalid "workspace IDG query accelerator reserved header mismatch")
    else
      let segmentCount ← readCoreU32
      let counts ← readTimes readCoreU64 idgQueryCoreCountFields
      match expectedBytes counts with
      | none => halt (.invalid "workspace IDG query accelerator size overflow")
      | some expected =>
        if expected ≠ encodedBytes then
          halt (.invalid s!"workspace IDG query accelerator byte length mismatch: expected {expected}, got {encodedBytes}")
        else if counts.any (usizeMax < ·) then
          halt (.invalid "workspace IDG query accelerator row count exceeds usize")
        else return (version,segmentCount,counts)

def readArrays (count : Nat → Nat) : Decoder QueryCore := do
  let segmentBases ← readCoreU32Values (count 0)
  let funcSegments ← readCoreU32Values (count 1)
  let nodeFuncs ← readCoreU32Values (count 2)
  let nodeBoundaries ← readCoreBytes (count 3)
  let projectedStorage ← readCoreBytes (count 4)
  let offsets ← readCoreU32Values (count 5)
  let nodes ← readCoreU32Values (count 6)
  let argumentNodes ← readCoreU32Values (count 7)
  let sites ← readCoreSpans (count 8)
  let argumentIndices ← readCoreU32Values (count 9)
  let formalNodes ← readCoreU32Values (count 10)
  let formalIndices ← readCoreU32Values (count 11)
  return { segmentBases, funcSegments, nodeFuncs, nodeBoundaries, projectedStorage
           nodesByFunc := ⟨offsets,nodes⟩
           callArgs := ⟨argumentNodes,sites,argumentIndices⟩
           params := ⟨formalNodes,formalIndices⟩ }

namespace PersistedQueryAccelerator

def layoutValid (decoded : PersistedQueryAccelerator) (workspace : IdgWorkspace) : Bool :=
  decoded.version == idgQueryAcceleratorVersion && decoded.segmentCount == workspace.segmentCount &&
    decoded.segmentBases.length == decoded.segmentCount + 1 && decoded.segmentBases.head? == some 0 &&
    decide (decoded.segmentBases.IsChain (· ≤ ·)) && decoded.nodeFuncs.length == decoded.nodeCount &&
    decoded.nodeBoundaries.length == decoded.nodeCount && decoded.projectedStorage.length == decoded.nodeCount &&
    decoded.funcSegments.all fun segmentId => segmentId == u32Max || segmentId < decoded.segmentCount

def checkNode (decoded : PersistedQueryAccelerator) (segmentId : SegmentId) (node : NodeId) : Except Halt Unit := do
  let func ← index decoded.nodeFuncs node
  let boundary ← index decoded.nodeBoundaries node
  if nodeBoundaryCallRet < boundary then .error (.invalid "query accelerator node layout or ownership is invalid")
  else
    let projected ← index decoded.projectedStorage node
    if 1 < projected ∨ decoded.funcSegments[func]? ≠ some segmentId then
      .error (.invalid "query accelerator node layout or ownership is invalid")
    else .ok ()

def checkSegment (decoded : PersistedQueryAccelerator) (segmentId : SegmentId) : Except Halt Unit := do
  let start ← index decoded.segmentBases segmentId
  let stop ← index decoded.segmentBases (segmentId + 1)
  forM (List.range' start (stop - start)) (decoded.checkNode segmentId)

def identityLayoutValid (decoded : PersistedQueryAccelerator) : Bool :=
  decoded.nodesByFunc.offsets.length == decoded.funcSegments.length + 1 &&
    offsetsAreValid decoded.nodesByFunc.offsets decoded.nodesByFunc.nodes.length &&
    decoded.callArgs.isValidFor decoded.nodeCount && decoded.params.isValidFor decoded.nodeCount &&
    decoded.params.nodes.all fun node => decoded.nodeBoundaries[node]? == some nodeBoundaryParam

def checkFunc (decoded : PersistedQueryAccelerator) (func : FuncId) : Except Halt Unit :=
  if u32Max < func then .error (.invalid "query accelerator function directory exceeds u32")
  else do
    let nodes ← decoded.nodesByFunc.get func
    if (nodes.getD []).any fun node => decoded.nodeFuncs[node]? ≠ some func then
      .error (.invalid "query accelerator function-to-node directory is inconsistent")
    else .ok ()

def validate (decoded : PersistedQueryAccelerator) (workspace : IdgWorkspace) : Except Halt Unit :=
  if decoded.layoutValid workspace = false then
    .error (.invalid "workspace IDG query accelerator header or dense array layout mismatch")
  else do
    forM (List.range decoded.segmentCount) decoded.checkSegment
    if decoded.identityLayoutValid = false then
      .error (.invalid "workspace IDG query accelerator identity directory mismatch")
    else forM (List.range decoded.funcSegments.length) decoded.checkFunc

def decode (encodedBytes : Nat) (workspace : IdgWorkspace) : Decoder PersistedQueryAccelerator := do
  let (version,segmentCount,counts) ← readHeader encodedBytes
  let core ← readArrays fun i => counts.getD i 0
  let decoded : PersistedQueryAccelerator := { core with version, segmentCount }
  lift (decoded.validate workspace)
  return decoded

end PersistedQueryAccelerator

def writeCoreU32Values (values : List Nat) : List UInt8 :=
  let (written,buffer) := values.foldl (fun (written,buffer) value =>
    let buffer := buffer ++ leBytes 4 value
    if buffer.length = valuesPerPage * 4 then (written ++ buffer,[]) else (written,buffer)) ([],[])
  if buffer.isEmpty then written else written ++ buffer

def coreCounts (core : QueryCore) : List Nat :=
  [core.segmentBases.length,core.funcSegments.length,core.nodeFuncs.length,core.nodeBoundaries.length,
    core.projectedStorage.length,core.nodesByFunc.offsets.length,core.nodesByFunc.nodes.length,core.callArgs.nodes.length,
    core.callArgs.sites.length,core.callArgs.indices.length,core.params.nodes.length,core.params.indices.length]

def coreHeader (version segmentCount : Nat) (counts : List Nat) : List UInt8 :=
  idgQueryCoreMagic ++ (leBytes 4 version ++ ([0,0,0,0] ++ (leBytes 4 segmentCount ++ counts.flatMap (leBytes 8))))

def spanBytes (span : Span) : List UInt8 := leBytes 4 span.file ++ (leBytes 8 span.start ++ leBytes 8 span.stop)

def encodeQueryAcceleratorCore (core : QueryCore) (segmentCount : Nat) : List UInt8 :=
  coreHeader idgQueryAcceleratorVersion segmentCount (coreCounts core) ++
    (writeCoreU32Values core.segmentBases ++ (writeCoreU32Values core.funcSegments ++ (writeCoreU32Values core.nodeFuncs ++
    (core.nodeBoundaries.map UInt8.ofNat ++ (core.projectedStorage.map UInt8.ofNat ++
    (writeCoreU32Values core.nodesByFunc.offsets ++ (writeCoreU32Values core.nodesByFunc.nodes ++
    (writeCoreU32Values core.callArgs.nodes ++ (core.callArgs.sites.flatMap spanBytes ++
    (writeCoreU32Values core.callArgs.indices ++ (writeCoreU32Values core.params.nodes ++
    writeCoreU32Values core.params.indices)))))))))))

end BonsaiNinja.Idg
