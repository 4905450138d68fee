import BonsaiNinja.Idg.NodeBitSet
import BonsaiNinja.Idg.ReverseIndexes
import BonsaiNinja.Library.SortedPages

namespace BonsaiNinja.Idg
open Library

abbrev U128 := Fin (2 ^ 128)

instance u128_lawfulBEq : LawfulBEq U128 := inferInstance

instance : RecordCodec U128 where
  width := 16
  encode key := leBytes 16 key
  decode record := leFin 128 record
  positive := by decide
  sized key := leBytes_length 16 key
  inverse key := leFin_leBytes (by decide) key

def runIndexStride : Nat := 256

def maxBloomHashCount : Nat := 7

def recentPositiveAssociativity : Nat := 4

def recentPositiveSetBytes : Nat := 4 * (16 + 1) + 1

def mix64 (value : UInt64) : UInt64 :=
  let value := value ^^^ (value >>> 30)
  let value := value * 0xbf58476d1ce4e5b9
  let value := value ^^^ (value >>> 27)
  let value := value * 0x94d049bb133111eb
  value ^^^ (value >>> 31)

def rotateLeft (value count : UInt64) : UInt64 := (value <<< count) ||| (value >>> (64 - count))

def lowWord (key : U128) : UInt64 := UInt64.ofNat key.val

def highHalf (key : U128) : UInt64 := UInt64.ofNat (key.val / 2 ^ 64)

def bloomHashes (key : U128) : UInt64 × UInt64 :=
  (mix64 (lowWord key ^^^ rotateLeft (highHalf key) 17),
    mix64 (highHalf key ^^^ rotateLeft (lowWord key) 31 ^^^ 0x9e3779b97f4a7c15) ||| 1)

structure BloomFilter where
  words : List (BitVec 64)
  bitLen : Nat
  hashCount : Nat

namespace BloomFilter

def new (bytes expectedItems : Nat) : BloomFilter :=
  let wordCount := (max bytes 8 + 7) / 8
  let bitLen := wordCount * 64
  let bitsPerItem := bitLen / max expectedItems 1
  ⟨List.replicate wordCount 0#64,bitLen,max 1 (min ((bitsPerItem * 7 + 9) / 10) maxBloomHashCount)⟩

def bit (filter : BloomFilter) (key : U128) (round : Nat) : Nat :=
  ((bloomHashes key).1 + UInt64.ofNat round * (bloomHashes key).2).toNat % filter.bitLen

def setBit (words : List (BitVec 64)) (bit : Nat) : List (BitVec 64) :=
  words.set (bit / 64) (wordAt words (bit / 64) ||| nodeMask bit)

def insert (filter : BloomFilter) (key : U128) : BloomFilter :=
  { filter with words := (List.range filter.hashCount).foldl (fun words round => setBit words (filter.bit key round)) filter.words }

def mayContain (filter : BloomFilter) (key : U128) : Bool :=
  (List.range filter.hashCount).all fun round =>
    (wordAt filter.words (filter.bit key round / 64) &&& nodeMask (filter.bit key round)) != 0#64

end BloomFilter

structure SortedRun where
  file : List UInt8
  len : Nat
  checkpoints : List U128

namespace SortedRun

def fromWriter (writer : Merging.RecordWriter U128) : SortedRun := ⟨writer.output,writer.count,writer.checkpoints⟩

def fromSorted (keys : List U128) : SortedRun :=
  fromWriter (keys.foldl (Merging.RecordWriter.write runIndexStride) .empty)

def readBlock (run : SortedRun) (start count : Nat) : Option (List UInt8) :=
  if count = 0 then some [] else readAt run.file (start * 16) (count * 16)

def locate (run : SortedRun) (key : U128) : Option (Nat × Bool) := do
  let checkpoint := partitionPoint (fun candidate => !before key candidate) run.checkpoints - 1
  let blockStart := min (checkpoint * runIndexStride) run.len
  let blockEnd := min (blockStart + runIndexStride) run.len
  let entryCount := blockEnd - blockStart
  let block ← run.readBlock blockStart entryCount
  let low := searchBlock (before · key) block entryCount
  return (blockStart + low,decide (low < entryCount) && decide ((recordAt block low : U128) = key))

def contains (run : SortedRun) (key : U128) : Option Bool := do
  let (_,found) ← run.locate key
  return found

def lowerBound (run : SortedRun) (key : U128) : Option Nat := do
  let (index,_) ← run.locate key
  return index

def readKey (bytes : List UInt8) : Option (U128 × List UInt8) :=
  if 16 ≤ bytes.length then some (decode (bytes.take 16),bytes.drop 16) else none

def readWithin (upper : U128) : Nat → Nat → List UInt8 → Option (List U128)
  | 0, _, _ => some []
  | left + 1, limit, bytes => do
    let (key,rest) ← readKey bytes
    if before upper key then return []
    else if limit ≤ 1 then return [key]
    else
      let later ← readWithin upper left (limit - 1) rest
      return key :: later

def prefixLower (head : U32) : U128 := Fin.ofNat (2 ^ 128) (head.val * 2 ^ 96)

def prefixUpper (head : U32) : U128 :=
  if head = Fin.last _ then Fin.last _ else Fin.ofNat (2 ^ 128) ((head.val + 1) * 2 ^ 96 - 1)

def firstAfter (head : U32) : Option U128 → U128
  | none => prefixLower head
  | some key =>
    let next : U128 := if key = Fin.last _ then key else key + 1
    if before next (prefixLower head) then prefixLower head else next

def prefixBatch (run : SortedRun) (head : U32) (after : Option U128) (limit : Nat) : Option (List U128) :=
  if (after.map fun key => !before key (prefixUpper head)).getD false then some []
  else do
    let start ← run.lowerBound (firstAfter head after)
    readWithin (prefixUpper head) (run.len - start) limit (run.file.drop (start * 16))

end SortedRun

structure RunCursor where
  head : Option U128
  remaining : Nat
  rest : List UInt8

namespace RunCursor

def fill (remaining : Nat) (rest : List UInt8) : Option RunCursor :=
  if 0 < remaining then do
    let (key,rest) ← SortedRun.readKey rest
    return ⟨some key,remaining,rest⟩
  else some ⟨none,remaining,rest⟩

def start (file : List UInt8) : Option RunCursor := fill (file.length / 16) file

def advance (cursor : RunCursor) : Option RunCursor := fill (cursor.remaining - 1) cursor.rest

end RunCursor

def mergeLoop : Nat → RunCursor → RunCursor → Merging.RecordWriter U128 → Option (Merging.RecordWriter U128)
  | fuel, left, right, writer =>
    match left.head, right.head, fuel with
    | none, none, _ => some writer
    | _, _, 0 => none
    | some key, none, fuel + 1 => do
      let left ← left.advance
      mergeLoop fuel left right (writer.write runIndexStride key)
    | none, some key, fuel + 1 => do
      let right ← right.advance
      mergeLoop fuel left right (writer.write runIndexStride key)
    | some first, some second, fuel + 1 =>
      if before second first then do
        let right ← right.advance
        mergeLoop fuel left right (writer.write runIndexStride second)
      else do
        let left ← left.advance
        mergeLoop fuel left right (writer.write runIndexStride first)

def mergeRuns (left right : SortedRun) : Option SortedRun := do
  let leftCursor ← RunCursor.start left.file
  let rightCursor ← RunCursor.start right.file
  let writer ← mergeLoop (left.file.length / 16 + right.file.length / 16) leftCursor rightCursor .empty
  return .fromWriter writer

structure WayFlags where
  occupied : Bool
  referenced : Bool
  deriving DecidableEq, Repr, Inhabited

structure RecentPositiveCache where
  keys : List U128
  ways : List WayFlags
  hands : List Nat
  setCount : Nat
  len : Nat

namespace RecentPositiveCache

def new (memoryBudgetBytes : Nat) : RecentPositiveCache :=
  let setCount := max (memoryBudgetBytes / recentPositiveSetBytes) 1
  let capacity := setCount * recentPositiveAssociativity
  ⟨List.replicate capacity 0,List.replicate capacity ⟨false,false⟩,List.replicate setCount 0,setCount,0⟩

def setIndex (cache : RecentPositiveCache) (key : U128) : Nat :=
  (mix64 (lowWord key ^^^ rotateLeft (highHalf key) 29)).toNat % cache.setCount

def setStart (cache : RecentPositiveCache) (key : U128) : Nat := cache.setIndex key * recentPositiveAssociativity

def flagsAt (cache : RecentPositiveCache) (index : Nat) : WayFlags := cache.ways.getD index ⟨false,false⟩

def keyAt (cache : RecentPositiveCache) (index : Nat) : U128 := cache.keys.getD index 0

-- A free way ends the search; a hit refreshes its reference flag.
def probe (cache : RecentPositiveCache) (key : U128) : List Nat → Bool × RecentPositiveCache
  | [] => (false,cache)
  | index :: rest =>
    if !(cache.flagsAt index).occupied then (false,cache)
    else if cache.keyAt index = key then
      (true,{ cache with ways := cache.ways.set index { cache.flagsAt index with referenced := true } })
    else probe cache key rest

def contains (cache : RecentPositiveCache) (key : U128) : Bool × RecentPositiveCache :=
  cache.probe key ((List.range recentPositiveAssociativity).map (cache.setStart key + ·))

def place (cache : RecentPositiveCache) (index : Nat) (key : U128) : RecentPositiveCache :=
  { cache with keys := cache.keys.set index key, ways := cache.ways.set index ⟨true,true⟩ }

-- The hand clears reference flags until it meets a way without one.
def sweep (start : Nat) (key : U128) : Nat → Nat → RecentPositiveCache → Option (RecentPositiveCache × Nat)
  | 0, _, _ => none
  | fuel + 1, hand, cache =>
    let index := start + hand
    let flags := cache.flagsAt index
    let cache := { cache with ways := cache.ways.set index ⟨true,false⟩ }
    let hand := (hand + 1) % recentPositiveAssociativity
    if flags.referenced then sweep start key fuel hand cache else some (cache.place index key,hand)

def rememberAbsent (cache : RecentPositiveCache) (key : U128) : Option RecentPositiveCache :=
  let set := cache.setIndex key
  let start := set * recentPositiveAssociativity
  match ((List.range recentPositiveAssociativity).map (start + ·)).find? fun index => !(cache.flagsAt index).occupied with
  | some index => some { cache.place index key with len := cache.len + 1 }
  | none => do
    let (cache,hand) ← sweep start key (recentPositiveAssociativity + 1) (cache.hands.getD set 0 % recentPositiveAssociativity) cache
    return { cache with hands := cache.hands.set set hand }

def remember (cache : RecentPositiveCache) (key : U128) : Option RecentPositiveCache :=
  match cache.contains key with
  | (true,cache) => some cache
  | (false,cache) => cache.rememberAbsent key

end RecentPositiveCache

structure SpillSet where
  resident : List U128
  recentPositives : Option RecentPositiveCache
  recentPositiveBudgetBytes : Nat
  residentByPrefix : Option (List (U32 × List U128))
  maxResidentEntries : Nat
  levels : List (Option SortedRun)
  membershipFilter : Option BloomFilter
  membershipFilterBudgetBytes : Nat
  len : Nat

namespace SpillSet

def new (maxResidentEntries bloomBytes recentPositiveBytes : Nat) (trackPrefixes : Bool) : SpillSet where
  resident := []
  recentPositives := none
  recentPositiveBudgetBytes := recentPositiveBytes
  residentByPrefix := if trackPrefixes then some [] else none
  maxResidentEntries := max maxResidentEntries 1
  levels := []
  membershipFilter := none
  membershipFilterBudgetBytes := bloomBytes
  len := 0

def anyRun (key : U128) : List (Option SortedRun) → Option Bool
  | [] => some false
  | none :: rest => anyRun key rest
  | some run :: rest => do
    let found ← run.contains key
    if found then return true else anyRun key rest

def containsInRuns (set : SpillSet) (key : U128) : Option Bool :=
  if set.levels.isEmpty then some false
  else if (set.membershipFilter.map fun filter => !filter.mayContain key).getD false then some false
  else anyRun key set.levels

def probeRecent (set : SpillSet) (key : U128) : Bool × SpillSet :=
  match set.recentPositives with
  | none => (false,set)
  | some cache => ((cache.contains key).1,{ set with recentPositives := some (cache.contains key).2 })

def placeRun : List (Option SortedRun) → SortedRun → Option (List (Option SortedRun))
  | [], run => some [some run]
  | none :: rest, run => some (some run :: rest)
  | some existing :: rest, run => do
    let merged ← mergeRuns existing run
    let rest ← placeRun rest merged
    return none :: rest

def topWord (key : U128) : U32 := Fin.ofNat (2 ^ 32) (key.val / 2 ^ 96)

def entryPush (head : U32) (key : U128) : List (U32 × List U128) → List (U32 × List U128)
  | [] => [(head,[key])]
  | entry :: rest => if entry.1 = head then (head,entry.2 ++ [key]) :: rest else entry :: entryPush head key rest

def openFilter (set : SpillSet) : Option BloomFilter :=
  if set.membershipFilter.isNone && decide (8 ≤ set.membershipFilterBudgetBytes) then
    some (BloomFilter.new set.membershipFilterBudgetBytes set.membershipFilterBudgetBytes)
  else set.membershipFilter

def flush (set : SpillSet) : Option SpillSet := do
  let keys := sortUnstable set.resident
  let cache := set.recentPositives.getD (RecentPositiveCache.new set.recentPositiveBudgetBytes)
  let cache ← keys.foldlM RecentPositiveCache.remember cache
  let filter := set.openFilter.map fun filter => keys.foldl BloomFilter.insert filter
  let levels ← placeRun set.levels (SortedRun.fromSorted keys)
  return { set with
    resident := []
    recentPositives := some cache
    membershipFilter := filter
    residentByPrefix := set.residentByPrefix.map fun _ => []
    levels := levels }

def rememberAbsent (set : SpillSet) (key : U128) : Option SpillSet :=
  match set.recentPositives with
  | none => none
  | some cache => do
    let cache ← cache.rememberAbsent key
    return { set with recentPositives := some cache }

def remember (set : SpillSet) (key : U128) : Option SpillSet :=
  match set.recentPositives with
  | none => none
  | some cache => do
    let cache ← cache.remember key
    return { set with recentPositives := some cache }

def rememberResident (set : SpillSet) (key : U128) : Option SpillSet :=
  if set.recentPositives.isSome then set.rememberAbsent key else some set

def insertNew (set : SpillSet) (key : U128) : Option SpillSet := do
  let set := { set with resident := set.resident ++ [key] }
  let set ← set.rememberResident key
  let set := { set with
    residentByPrefix := set.residentByPrefix.map (entryPush (topWord key) key)
    len := set.len + 1 }
  if set.maxResidentEntries ≤ set.resident.length then set.flush else return set

def insert (set : SpillSet) (key : U128) : Option (Bool × SpillSet) :=
  if set.resident.contains key then some (false,set)
  else
    match set.probeRecent key with
    | (true,set) => some (false,set)
    | (false,set) => do
      let spilled ← set.containsInRuns key
      if spilled then
        let set ← set.rememberAbsent key
        return (false,set)
      else
        let set ← set.insertNew key
        return (true,set)

def contains (set : SpillSet) (key : U128) : Option (Bool × SpillSet) :=
  match set.probeRecent key with
  | (recentlyPositive,set) =>
    if set.resident.contains key || recentlyPositive then some (true,set)
    else do
      let spilled ← set.containsInRuns key
      if spilled then
        let set ← set.remember key
        return (true,set)
      else return (false,set)

def runBatches (head : U32) (after : Option U128) (limit : Nat) : List (Option SortedRun) → Option (List U128)
  | [] => some []
  | none :: rest => runBatches head after limit rest
  | some run :: rest => do
    let keys ← run.prefixBatch head after limit
    let later ← runBatches head after limit rest
    return keys ++ later

def residentKeys (set : SpillSet) (head : U32) (after : Option U128) : List U128 :=
  let keys := (set.residentByPrefix.bind fun byPrefix => byPrefix.lookup head).getD []
  match after with
  | none => keys
  | some after => keys.filter (before after ·)

def keysWithPrefixBatch (set : SpillSet) (head : U32) (after : Option U128) (limit : Nat) : Option (List U128) := do
  let limit := max limit 1
  let resident := (sortUnstable (set.residentKeys head after)).take limit
  let spilled ← runBatches head after limit set.levels
  return (sortDedup (resident ++ spilled)).take limit

end SpillSet

end BonsaiNinja.Idg
