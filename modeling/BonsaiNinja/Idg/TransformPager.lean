import BonsaiNinja.Idg.NodeBitSet
import BonsaiNinja.Idg.ReverseLookups
import BonsaiNinja.Idg.TransformSpool
import BonsaiNinja.Library.PageCache

namespace BonsaiNinja.Idg
open Library

inductive SymbolicBlobStorage where
  | file (bytes : List UInt8)
  | persisted (blob : List UInt8)

namespace SymbolicBlobStorage

def bytes : SymbolicBlobStorage → List UInt8
  | .file bytes => bytes
  | .persisted blob => blob

def readExactAt (storage : SymbolicBlobStorage) (offset count : Nat) : Option (List UInt8) := readAt storage.bytes offset count

def snapshotFrom (storage : SymbolicBlobStorage) (total offset : Nat) : Option (List UInt8) :=
  if offset < total then
    let take := min (total - offset) mib
    match storage.readExactAt offset take with
    | none => none
    | some page => (snapshotFrom storage total (offset + take)).map (page ++ ·)
  else some []
termination_by total - offset
decreasing_by simp only [mib]; omega

theorem snapshotFrom_exact {storage : SymbolicBlobStorage} {total : Nat} (whole : storage.bytes.length = total) (offset : Nat) :
    storage.snapshotFrom total offset = some (storage.bytes.drop offset) := by
  induction left : total - offset using Nat.strong_induction_on generalizing offset with
  | _ left ih =>
    rw [snapshotFrom]
    simp only []
    split
    · next more =>
      have page : 0 < min (total - offset) mib := by simp only [mib]; omega
      have ends : offset + min (total - offset) mib ≤ total := by omega
      rw [readExactAt,readAt,if_pos (whole ▸ ends)]
      simp only []
      rw [ih _ (by omega) _ rfl,Option.map_some,← slice_to_end,← slice_to_end,
        slice_append_slice (Nat.le_add_right offset _) (whole ▸ ends)]
    · next done => rw [List.drop_eq_nil_of_le (by omega)]

end SymbolicBlobStorage

structure SymbolicTransformPager where
  storage : SymbolicBlobStorage
  offsets : List Nat
  cache : PageCache U32 (List CompactSymbolicTransform)
  capacity : Nat

namespace SymbolicTransformPager

def workerCapacity (workers : Nat) : Nat := max (workers * 2) 2

def snapshotFile (pager : SymbolicTransformPager) : Option (List UInt8) :=
  pager.storage.snapshotFrom (pager.offsets.getLast?.getD 0 * width TransformRecord) 0

def fromPersisted (workers : Nat) (offsets : List Nat) (storage : List UInt8) : Except String SymbolicTransformPager :=
  if offsets.isEmpty ∨ offsets.head? ≠ some 0 ∨ (offsets.zip offsets.tail).any (fun pair => pair.1 > pair.2) ∨
      storage.length ≠ offsets.getLast?.getD 0 * width TransformRecord then
    .error "symbolic transform page layout"
  else .ok ⟨.persisted storage,offsets,.empty,workerCapacity workers⟩

def readPage (pager : SymbolicTransformPager) (start count : Nat) : Option (List UInt8) :=
  if count = 0 then some []
  else pager.storage.readExactAt (start * width TransformRecord) (count * width TransformRecord)

def outgoing (pager : SymbolicTransformPager) (source : U32) :
    Option (List CompactSymbolicTransform × SymbolicTransformPager) :=
  match pager.cache.get source with
  | some page => some (page,pager)
  | none =>
    match pager.offsets[source.val]?, pager.offsets[source.val + 1]? with
    | some start, some stop => do
      let payload ← pager.readPage start (stop - start)
      let transforms ← (chunksExact payload).mapM fun record => decodeSymbolicTransform record source
      let cache ← pager.cache.remember pager.capacity source transforms
      return (transforms,{ pager with cache := cache })
    | _, _ => some ([],pager)

def outgoingCalls : List U32 → SymbolicTransformPager → Option (List (List CompactSymbolicTransform) × SymbolicTransformPager)
  | [], pager => some ([],pager)
  | source :: rest, pager => do
    let (page,pager) ← pager.outgoing source
    let (later,pager) ← outgoingCalls rest pager
    return (page :: later,pager)

structure Layout where
  offsets : List Nat
  nextBase : Nat
  count : Nat
  payload : List UInt8
  file : List UInt8

def fillOffsets (count stop : Nat) (offsets : List Nat) (nextBase : Nat) : List Nat × Nat :=
  if nextBase < stop then fillOffsets count stop (offsets.set nextBase count) (nextBase + 1) else (offsets,nextBase)
termination_by stop - nextBase

def layoutRow (baseCount : Nat) (layout : Layout) (transform : CompactSymbolicTransform) : Option Layout :=
  if transform.source.val < baseCount then
    let (offsets,nextBase) := fillOffsets layout.count (transform.source.val + 1) layout.offsets layout.nextBase
    let payload := layout.payload ++ encode (encodeSymbolicTransform transform)
    if layout.count + 1 < 2 ^ 32 then
      if transformReadRows * width TransformRecord ≤ payload.length then
        some ⟨offsets,nextBase,layout.count + 1,[],layout.file ++ payload⟩
      else some ⟨offsets,nextBase,layout.count + 1,payload,layout.file⟩
    else none
  else none

def layoutRows (baseCount : Nat) (rows : List CompactSymbolicTransform) : Option (List Nat × List UInt8) := do
  let layout ← rows.foldlM (layoutRow baseCount) ⟨List.replicate (baseCount + 1) 0,0,0,[],[]⟩
  let (offsets,_) := fillOffsets layout.count layout.offsets.length layout.offsets layout.nextBase
  return (offsets,layout.file ++ layout.payload)

def admits (bases : List FuncId) (allowed : Option (List FuncId)) (transform : CompactSymbolicTransform) : Bool :=
  match allowed with
  | none => true
  | some allowed =>
    bases[transform.source.val]?.any (allowed.contains ·) && bases[transform.target.val]?.any (allowed.contains ·)

structure Collecting where
  spool : SymbolicTransformSpool
  reverse : ExternalSorter ReverseSymbolicRecord
  reverseScalar : ExternalSorter ReverseScalarRecord
  orderingSensitiveBases : List (BitVec 64)
  factSpans : List WireSpan

def Collecting.new (baseCount : Nat) (factSpans : List WireSpan) : Collecting :=
  ⟨.new,.new 131072,.new 100000,List.replicate ((baseCount + 63) / 64) 0#64,factSpans⟩

def markSensitive (bits : List (BitVec 64)) (source : Nat) : List (BitVec 64) :=
  bits.set (source / 64) (wordAt bits (source / 64) ||| nodeMask source)

def reverseRow (transform : CompactSymbolicTransform) : U32 × SymbolicRow :=
  (transform.target,transform.source,transform.kind)

def scalarRow (transform : CompactSymbolicTransform) : ReverseScalarRecord :=
  ⟨transform.target,transform.writeSpan.file,transform.writeSpan.start,transform.writeSpan.stop,transform.source,
    transform.exactField⟩

def pushReverse (baseCount : Nat) (state : Collecting) (transform : CompactSymbolicTransform) :
    Option (ExternalSorter ReverseSymbolicRecord × ExternalSorter ReverseScalarRecord) :=
  if transform.kind = .scalarReturn then some (state.reverse,state.reverseScalar.push (scalarRow transform))
  else if transform.target.val < baseCount then
    some (state.reverse.push ⟨transform.target,transform.source,kindByte transform.kind⟩,state.reverseScalar)
  else none

-- A source outside the dictionary aborts.
def visitTransform (baseCount : Nat) (bases : List FuncId) (allowed : Option (List FuncId)) (state : Collecting)
    (transform : CompactSymbolicTransform) : Option Collecting :=
  if transform.source.val < baseCount then
    if admits bases allowed transform then do
      let bits := if transform.allowOutOfOrderSource then state.orderingSensitiveBases
        else markSensitive state.orderingSensitiveBases transform.source.val
      let spans := state.factSpans.insert transform.writeSpan
      let (reverse,reverseScalar) ← pushReverse baseCount state transform
      let spool ← state.spool.push transform
      return ⟨spool,reverse,reverseScalar,bits,spans⟩
    else some state
  else none

structure Built where
  pager : SymbolicTransformPager
  reverse : ReverseSymbolicTransformIndex
  reverseScalar : ReverseScalarTransformIndex
  orderingSensitiveBases : List (BitVec 64)
  factSpans : List WireSpan

def build (workers : Nat) (memoryLimit : Option Nat) (bases : List FuncId) (baseCount : Nat) (factSpans : List WireSpan)
    (allowed : Option (List FuncId)) (visited : List CompactSymbolicTransform) : Option Built := do
  let state ← visited.foldlM (visitTransform baseCount bases allowed) (.new baseCount factSpans)
  let rows ← state.spool.finish memoryLimit
  let (offsets,bytes) ← layoutRows baseCount rows
  let reverse ← finishReverseSymbolic workers memoryLimit state.reverse
  let reverseScalar ← state.reverseScalar.finish memoryLimit
  return ⟨⟨.file bytes,offsets,.empty,workerCapacity workers⟩,reverse,⟨reverseScalar⟩,state.orderingSensitiveBases,state.factSpans⟩

end SymbolicTransformPager

def retainsLocalProvenance (bits : List (BitVec 64)) (base : Nat) : Bool :=
  match bits[base / 64]? with
  | some word => (word &&& nodeMask base) != 0#64
  | none => false

end BonsaiNinja.Idg
