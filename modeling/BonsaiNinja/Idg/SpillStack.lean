import BonsaiNinja.Idg.SpillRuns

namespace BonsaiNinja.Idg
open Library

structure SpillStackChunk where
  offset : Nat
  len : Nat
  deriving DecidableEq, Repr

structure SpillStack where
  resident : List U128
  maxResidentEntries : Nat
  file : Option (List UInt8)
  chunks : List SpillStackChunk
  len : Nat

namespace SpillStack

def new (maxResidentEntries : Nat) : SpillStack := ⟨[],max maxResidentEntries 1,none,[],0⟩

def flush (stack : SpillStack) : SpillStack :=
  let file := stack.file.getD []
  { stack with
    file := some (file ++ wire stack.resident)
    chunks := stack.chunks ++ [⟨file.length,stack.resident.length⟩]
    resident := [] }

def push (stack : SpillStack) (key : U128) : SpillStack :=
  let stack := { stack with resident := stack.resident ++ [key], len := stack.len + 1 }
  if stack.maxResidentEntries ≤ stack.resident.length then stack.flush else stack

def readKeys : Nat → List UInt8 → Option (List U128)
  | 0, _ => some []
  | count + 1, bytes => do
    let (key,rest) ← SortedRun.readKey bytes
    let later ← readKeys count rest
    return key :: later

def reload (stack : SpillStack) : Option SpillStack :=
  match stack.chunks.getLast? with
  | none => some stack
  | some chunk => do
    let file ← stack.file
    let keys ← readKeys chunk.len (file.drop chunk.offset)
    return { stack with resident := keys, chunks := stack.chunks.dropLast, file := some (file.take chunk.offset) }

def pop (stack : SpillStack) : Option (Option U128 × SpillStack) := do
  let stack ← if stack.resident.isEmpty then stack.reload else some stack
  match stack.resident.getLast? with
  | none => return (none,stack)
  | some key => return (some key,{ stack with resident := stack.resident.dropLast, len := stack.len - 1 })

def isEmpty (stack : SpillStack) : Bool := stack.len == 0

def fileLength (stack : SpillStack) : Nat := (stack.file.getD []).length

def ranges (stack : SpillStack) : List (Nat × Nat) := stack.chunks.map fun chunk => (chunk.offset,chunk.len * 16)

end SpillStack

inductive StackRequest
  | push (key : U128)
  | pop

def SpillStack.serve (stack : SpillStack) : List StackRequest → Option (List (Option U128) × SpillStack)
  | [] => some ([],stack)
  | .push key :: rest => (stack.push key).serve rest
  | .pop :: rest => do
    let (answer,stack) ← stack.pop
    let (answers,stack) ← stack.serve rest
    return (answer :: answers,stack)

def serveUnbounded (live : List U128) : List StackRequest → List (Option U128) × List U128
  | [] => ([],live)
  | .push key :: rest => serveUnbounded (live ++ [key]) rest
  | .pop :: rest => (live.getLast? :: (serveUnbounded live.dropLast rest).1,(serveUnbounded live.dropLast rest).2)

namespace SpillStack

-- What lies on disk, oldest first: every chunk begins where the file ended when it was
-- written.
inductive Spilled (limit : Nat) : List SpillStackChunk → List U128 → Prop
  | empty : Spilled limit [] []
  | chunk {chunks : List SpillStackChunk} {below keys : List U128} (older : Spilled limit chunks below) (filled : keys ≠ [])
      (bounded : keys.length ≤ limit) : Spilled limit (chunks ++ [⟨(wire below).length,keys.length⟩]) (below ++ keys)

structure Holds (stack : SpillStack) (below : List U128) : Prop where
  spilled : Spilled stack.maxResidentEntries stack.chunks below
  contents : stack.file.getD [] = wire below
  counted : stack.len = (below ++ stack.resident).length
  bounded : stack.resident.length < stack.maxResidentEntries
  created : stack.file = none → stack.chunks = []

variable {stack : SpillStack} {below keys : List U128} {limit : Nat} {chunks : List SpillStackChunk}

theorem readKeys_wire (rows tail : List U128) : readKeys rows.length (wire (rows ++ tail)) = some rows := by
  induction rows with
  | nil => rfl
  | cons key rest ih =>
    rw [List.length_cons,readKeys,List.cons_append,SortedRun.readKey_wire,Option.bind_eq_bind,Option.bind_some]
    dsimp only
    rw [ih]
    rfl

theorem spilled_tiles (spilled : Spilled limit chunks below) :
    Tiles 0 (chunks.map fun chunk => (chunk.offset,chunk.len * 16)) (wire below).length := by
  induction spilled with
  | empty => exact .nil 0
  | @chunk chunks below keys older filled bounded ih =>
    rw [List.map_append,wire_append,List.length_append,wire_length keys]
    refine ih.snoc ?_
    have positive : 0 < keys.length := List.length_pos_iff.mpr filled
    change 0 < keys.length * 16
    omega

theorem spilled_last (spilled : Spilled limit chunks below) : chunks = [] ∧ below = [] ∨
    ∃ earlier older keys, Spilled limit earlier older ∧ keys ≠ [] ∧ keys.length ≤ limit ∧
      chunks = earlier ++ [⟨(wire older).length,keys.length⟩] ∧ below = older ++ keys := by
  cases spilled with
  | empty => exact .inl ⟨rfl,rfl⟩
  | chunk older filled bounded => exact .inr ⟨_,_,_,older,filled,bounded,rfl,rfl⟩

theorem new_holds (maxResidentEntries : Nat) : (new maxResidentEntries).Holds [] where
  spilled := .empty
  contents := rfl
  counted := rfl
  bounded := Nat.lt_of_lt_of_le Nat.zero_lt_one (Nat.le_max_right _ _)
  created _ := rfl

theorem flush_holds (spilled : Spilled stack.maxResidentEntries stack.chunks below) (contents : stack.file.getD [] = wire below)
    (counted : stack.len = (below ++ stack.resident).length) (full : stack.resident.length = stack.maxResidentEntries)
    (positive : 0 < stack.maxResidentEntries) : stack.flush.Holds (below ++ stack.resident) where
  spilled := by
    unfold flush
    rw [contents]
    exact .chunk spilled (List.length_pos_iff.mp (full ▸ positive)) (Nat.le_of_eq full)
  contents := by
    unfold flush
    rw [contents,wire_append]
    rfl
  counted := by
    unfold flush
    rw [List.append_nil]
    exact counted
  bounded := positive
  created missing := by cases missing

theorem push_holds (holds : stack.Holds below) (key : U128) :
    ∃ below', (stack.push key).Holds below' ∧
      below' ++ (stack.push key).resident = below ++ stack.resident ++ [key] := by
  have room := holds.bounded
  have longer : (stack.resident ++ [key]).length = stack.resident.length + 1 := List.length_append
  have counted : stack.len + 1 = (below ++ (stack.resident ++ [key])).length := by
    rw [← List.append_assoc,List.length_append,holds.counted]
    rfl
  unfold push
  dsimp only
  split
  · next full =>
    refine ⟨below ++ (stack.resident ++ [key]),?_,?_⟩
    · refine flush_holds holds.spilled holds.contents counted ?_ ?_
      · change (stack.resident ++ [key]).length = stack.maxResidentEntries
        omega
      · change 0 < stack.maxResidentEntries
        omega
    · change below ++ (stack.resident ++ [key]) ++ [] = _
      rw [List.append_nil,List.append_assoc]
  · next fits =>
    refine ⟨below,⟨holds.spilled,holds.contents,counted,Nat.lt_of_not_le fits,holds.created⟩,?_⟩
    rw [List.append_assoc]

theorem reload_newest (last : stack.chunks = chunks ++ [⟨(wire below).length,keys.length⟩])
    (contents : stack.file.getD [] = wire (below ++ keys)) (created : stack.file = none → stack.chunks = []) :
    stack.reload = some { stack with resident := keys, chunks, file := some (wire below) } := by
  cases file : stack.file with
  | none =>
    rw [created file] at last
    exact absurd last.symm (by simp)
  | some bytes =>
    rw [file,Option.getD_some] at contents
    have behind : bytes.drop (wire below).length = wire (keys ++ []) := by
      rw [contents,wire_append,List.drop_left,List.append_nil]
    have front : bytes.take (wire below).length = wire below := by rw [contents,wire_append,List.take_left]
    unfold reload
    rw [last,List.getLast?_concat,file]
    simp only [Option.bind_eq_bind,Option.bind_some,behind,readKeys_wire,List.dropLast_concat,front]
    rfl

theorem pop_resident {top : U128} {rest : List U128} (split : stack.resident = rest ++ [top]) :
    stack.pop = some (some top,{ stack with resident := rest, len := stack.len - 1 }) := by
  unfold pop
  simp [split]

theorem pop_reloaded {loaded : SpillStack} (empty : stack.resident = []) (load : stack.reload = some loaded) {top : U128}
    {rest : List U128} (split : loaded.resident = rest ++ [top]) :
    stack.pop = some (some top,{ loaded with resident := rest, len := loaded.len - 1 }) := by
  unfold pop
  simp [empty,load,split]

theorem pop_holds (holds : stack.Holds below) :
    ∃ stack' below', stack.pop = some ((below ++ stack.resident).getLast?,stack') ∧ stack'.Holds below' ∧
      below' ++ stack'.resident = (below ++ stack.resident).dropLast := by
  have bounded := holds.bounded
  have counted := holds.counted
  rcases List.eq_nil_or_concat' stack.resident with empty | ⟨rest,top,split⟩
  · rcases spilled_last holds.spilled with ⟨gone,rfl⟩ | ⟨chunks,older,keys,spilled,filled,limited,last,rfl⟩
    · refine ⟨stack,[],?_,holds,?_⟩
      · unfold pop reload
        simp [empty,gone]
      · rw [empty]
        rfl
    · obtain ⟨rest,top,rfl⟩ := (List.eq_nil_or_concat' keys).resolve_left filled
      have load := reload_newest last holds.contents holds.created
      refine ⟨{ stack with resident := rest, chunks, file := some (wire older), len := stack.len - 1 },older,?_,
        ⟨spilled,rfl,?_,?_,?_⟩,?_⟩
      · rw [pop_reloaded empty load rfl,empty,List.append_nil,← List.append_assoc,List.getLast?_concat]
      · change stack.len - 1 = (older ++ rest).length
        rw [counted,empty]
        simp only [List.length_append,List.length_singleton,List.length_nil]
        omega
      · change rest.length < stack.maxResidentEntries
        rw [List.length_append,List.length_singleton] at limited
        omega
      · intro missing
        cases missing
      · rw [empty,List.append_nil,← List.append_assoc,List.dropLast_concat]
  · refine ⟨{ stack with resident := rest, len := stack.len - 1 },below,?_,
      ⟨holds.spilled,holds.contents,?_,?_,holds.created⟩,?_⟩
    · rw [pop_resident split,split,← List.append_assoc,List.getLast?_concat]
    · change stack.len - 1 = (below ++ rest).length
      rw [counted,split]
      simp only [List.length_append,List.length_singleton]
      omega
    · change rest.length < stack.maxResidentEntries
      rw [split,List.length_append,List.length_singleton] at bounded
      omega
    · rw [split,← List.append_assoc,List.dropLast_concat]

theorem serve_holds (requests : List StackRequest) {stack : SpillStack} {below : List U128} (holds : stack.Holds below) :
    ∃ stack' below', stack.serve requests = some ((serveUnbounded (below ++ stack.resident) requests).1,stack') ∧
      stack'.Holds below' ∧ below' ++ stack'.resident = (serveUnbounded (below ++ stack.resident) requests).2 := by
  induction requests generalizing stack below with
  | nil => exact ⟨stack,below,rfl,holds,rfl⟩
  | cons request rest ih =>
    cases request with
    | push key =>
      obtain ⟨below',pushed,live⟩ := push_holds holds key
      obtain ⟨last,deepest,served,held,same⟩ := ih pushed
      rw [live] at served same
      exact ⟨last,deepest,served,held,same⟩
    | pop =>
      obtain ⟨next,below',popped,held,live⟩ := pop_holds holds
      obtain ⟨last,deepest,served,kept,same⟩ := ih held
      rw [live] at served same
      refine ⟨last,deepest,?_,kept,same⟩
      unfold serve
      rw [popped,Option.bind_eq_bind,Option.bind_some]
      dsimp only
      rw [served]
      rfl

structure Shows (stack : SpillStack) (live : List U128) : Prop where
  counts : stack.len = live.length
  empties : stack.isEmpty = true ↔ live = []
  tiles : Tiles 0 stack.ranges stack.fileLength
  contents : ∃ below, stack.file.getD [] = wire below ∧ live = below ++ stack.resident
  bounded : stack.resident.length < stack.maxResidentEntries
  released : live = [] → stack.chunks = [] ∧ stack.fileLength = 0

theorem holds_shows (holds : stack.Holds below) : stack.Shows (below ++ stack.resident) where
  counts := holds.counted
  empties := by
    rw [isEmpty,beq_iff_eq,holds.counted,List.length_eq_zero_iff]
  tiles := by
    rw [fileLength,holds.contents]
    exact spilled_tiles holds.spilled
  contents := ⟨below,holds.contents,rfl⟩
  bounded := holds.bounded
  released none := by
    rw [List.append_eq_nil_iff] at none
    obtain ⟨rfl,_⟩ := none
    refine ⟨?_,by rw [fileLength,holds.contents]; rfl⟩
    rcases spilled_last holds.spilled with ⟨gone,_⟩ | ⟨_,_,_,_,filled,_,_,joined⟩
    · exact gone
    · exact absurd (List.append_eq_nil_iff.mp joined.symm).2 filled

-- Whatever the bound, pushes and pops in any order answer as an unbounded stack does,
-- and after each of them the chunks tile the file.
theorem spill_stack_is_lifo (maxResidentEntries : Nat) (requests : List StackRequest) :
    ∃ stack, (new maxResidentEntries).serve requests = some ((serveUnbounded [] requests).1,stack) ∧
      stack.Shows (serveUnbounded [] requests).2 := by
  obtain ⟨stack,below,served,holds,live⟩ := serve_holds requests (new_holds maxResidentEntries)
  refine ⟨stack,served,?_⟩
  have shown := holds_shows holds
  rw [live] at shown
  exact shown

example : (((new 2).serve [.push 0,.push 1,.push 2,.push 3,.pop,.push 4,.pop,.pop,.pop,.pop,.pop]).map (·.1)) =
    some [some 3,some 4,some 2,some 1,some 0,none] := by decide

end SpillStack

end BonsaiNinja.Idg
