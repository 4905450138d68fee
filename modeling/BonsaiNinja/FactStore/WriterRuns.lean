import BonsaiNinja.FactStore.Writer

namespace BonsaiNinja.FactStore

open BonsaiNinja.Library
open Idg (Text)

structure Fact where
  key : UInt64
  bodyHash : UInt64
  payload : List UInt8
  deriving DecidableEq

def pendingEnd (entry : PendingIndexEntry) : Nat := entry.payloadOffset.toNat + entry.payloadLen.toNat

def PendingIndexEntry.factIn (entry : PendingIndexEntry) (content : List UInt8) : Fact :=
  ⟨entry.key,entry.bodyHash,slice content entry.payloadOffset.toNat (pendingEnd entry)⟩

namespace WriteCmd

def fact : WriteCmd → Fact
  | entry key bodyHash payload => ⟨key,bodyHash,payload⟩
  | streamEntry key bodyHash encode => ⟨key,bodyHash,(encode.encode 0).1⟩

-- The payload is below 4 GiB, and a streamed one is encoded to its end.
def Succeeds : WriteCmd → Prop
  | entry _ _ payload => payload.length < 2 ^ 32
  | streamEntry _ _ encode => (encode.encode 0).2 = .done

end WriteCmd

structure Stored (state : ThreadState) (facts : List Fact) : Prop where
  headed : headerSize ≤ state.content.length
  offset : state.nextPayloadOffset = state.content.length
  inside : ∀ entry ∈ state.entries, headerSize ≤ entry.payloadOffset.toNat ∧ pendingEnd entry ≤ state.content.length
  facts : state.entries.map (·.factIn state.content) = facts

theorem encode_length (encode : StreamEncoder) {written : Nat} (below : written ≤ u32Max) :
    written + (encode.encode written).1.length ≤ u32Max := by
  induction encode generalizing written with
  | done => exact below
  | failed => exact below
  | panicked => exact below
  | write bytes next ih =>
    unfold StreamEncoder.encode
    split
    · exact ih false below
    · rename_i room
      have later := ih true (Nat.le_of_not_lt room)
      rw [List.length_append]
      omega

theorem slice_append_left {front back : List UInt8} {start stop : Nat} (inside : stop ≤ front.length) :
    slice (front ++ back) start stop = slice front start stop :=
  slice_congr fun i _ below => List.getElem?_append_left (by omega)

theorem Stored.append {state : ThreadState} {facts : List Fact} (stored : Stored state facts) (key bodyHash : UInt64)
    {payload : List UInt8} (short : payload.length < 2 ^ 32) (fits : state.content.length < 2 ^ 64) :
    Stored (state.append key bodyHash payload) (facts ++ [⟨key,bodyHash,payload⟩]) := by
  have start : (UInt64.ofNat state.nextPayloadOffset).toNat = state.content.length := by
    rw [stored.offset]
    exact UInt64.toNat_ofNat_of_lt fits
  have length : (UInt32.ofNat payload.length).toNat = payload.length := UInt32.toNat_ofNat_of_lt short
  unfold ThreadState.append
  refine ⟨?_,?_,fun entry member => ?_,?_⟩
  · rw [List.length_append]
    exact le_trans stored.headed (Nat.le_add_right _ _)
  · rw [List.length_append,stored.offset]
  · rw [List.length_append]
    rcases List.mem_append.mp member with earlier | last
    · have bounds := stored.inside entry earlier
      exact ⟨bounds.1,le_trans bounds.2 (Nat.le_add_right _ _)⟩
    · cases List.mem_singleton.mp last
      refine ⟨start.symm ▸ stored.headed,?_⟩
      rw [pendingEnd,start,length]
  · rw [List.map_append,List.map_singleton,← stored.facts]
    refine congrArg₂ _ (List.map_congr_left fun entry member => ?_) ?_
    · rw [PendingIndexEntry.factIn,slice_append_left (stored.inside entry member).2]
      rfl
    · rw [PendingIndexEntry.factIn,pendingEnd,start,length,slice_past (Nat.le_refl _),Nat.sub_self,Nat.add_sub_cancel_left,
        slice_whole rfl]

theorem process_cases (state : ThreadState) (command : WriteCmd) :
    (command.Succeeds ∧ command.fact.payload.length < 2 ^ 32 ∧
      state.process command = .ok (state.append command.fact.key command.fact.bodyHash command.fact.payload)) ∨
    (¬command.Succeeds ∧ ∃ reason, state.process command = .error reason) := by
  cases command with
  | entry key bodyHash payload =>
    by_cases short : payload.length < 2 ^ 32
    · exact .inl ⟨short,short,if_pos short⟩
    · exact .inr ⟨short,_,if_neg short⟩
  | streamEntry key bodyHash encode =>
    have short := encode_length encode (Nat.zero_le u32Max)
    have below : (encode.encode 0).1.length < 2 ^ 32 := by
      unfold u32Max at short
      omega
    cases ended : (encode.encode 0).2 with
    | done => exact .inl ⟨ended,below,by simp only [ThreadState.process,ended,WriteCmd.fact]⟩
    | failed =>
      exact .inr ⟨fun done => (by cases ended.symm.trans done),.streamFailed,by simp only [ThreadState.process,ended]⟩
    | panicked =>
      exact .inr ⟨fun done => (by cases ended.symm.trans done),.panicked,by simp only [ThreadState.process,ended]⟩

def consume : List WriteCmd → ThreadState → Except ThreadEnd ThreadState
  | [], state => .ok state
  | command :: rest, state =>
    match state.process command with
    | .ok next => consume rest next
    | .error reason => .error reason

theorem consume_append (front back : List WriteCmd) (state : ThreadState) :
    consume (front ++ back) state = (consume front state).bind (consume back) := by
  induction front generalizing state with
  | nil => rfl
  | cons command rest ih =>
    rw [List.cons_append,consume,consume]
    cases state.process command with
    | ok next => exact ih next
    | error reason => rfl

theorem consume_stored {commands : List WriteCmd} {state : ThreadState} {facts : List Fact} (stored : Stored state facts)
    (succeed : ∀ command ∈ commands, command.Succeeds)
    (fits : state.content.length + (commands.map (·.fact.payload.length)).sum < 2 ^ 63) :
    ∃ final, consume commands state = .ok final ∧ Stored final (facts ++ commands.map WriteCmd.fact) ∧
      final.content.length = state.content.length + (commands.map (·.fact.payload.length)).sum ∧
      ∃ later, final.content = state.content ++ later := by
  induction commands generalizing state facts with
  | nil => exact ⟨state,rfl,by rwa [List.map_nil,List.append_nil],rfl,[],(List.append_nil _).symm⟩
  | cons command rest ih =>
    rw [List.map_cons,List.sum_cons] at fits
    rcases process_cases state command with ok | failed
    · obtain ⟨_,short,processed⟩ := ok
      have next := stored.append command.fact.key command.fact.bodyHash short (by omega)
      have grown : (state.append command.fact.key command.fact.bodyHash command.fact.payload).content.length =
          state.content.length + command.fact.payload.length := List.length_append
      obtain ⟨final,ran,held,length,later,content⟩ := ih next
        (fun other member => succeed other (List.mem_cons_of_mem _ member)) (by rw [grown]; omega)
      refine ⟨final,by rw [consume,processed]; exact ran,?_,?_,command.fact.payload ++ later,?_⟩
      · rw [List.map_cons,← List.append_cons] at *
        exact held
      · rw [List.map_cons,List.sum_cons,length,grown,Nat.add_assoc]
      · rw [content,← List.append_assoc]
        rfl
    · exact absurd (succeed command List.mem_cons_self) failed.1

theorem consume_error {commands : List WriteCmd} {command : WriteCmd} (member : command ∈ commands) (fails : ¬command.Succeeds)
    (state : ThreadState) : ∃ reason, consume commands state = .error reason := by
  induction commands generalizing state with
  | nil => exact absurd member List.not_mem_nil
  | cons first rest ih =>
    rw [consume]
    rcases process_cases state first with ok | failed
    · rw [ok.2.2]
      rcases List.mem_cons.mp member with same | later
      · exact absurd (same ▸ ok.1) fails
      · exact ih later _
    · obtain ⟨_,reason,stopped⟩ := failed
      rw [stopped]
      exact ⟨reason,rfl⟩

-- Using a writer changes nothing about where it publishes, and no file but its
-- temporary one.
structure Continues (writer writer' : FactStoreWriter) : Prop where
  target : writer'.targetPath = writer.targetPath
  tmp : writer'.tmpPath = writer.tmpPath
  tableId : writer'.tableId = writer.tableId
  pipelineHash : writer'.pipelineHash = writer.pipelineHash
  files : ∀ path ≠ writer.tmpPath, writer'.files path = writer.files path

theorem Continues.refl (writer : FactStoreWriter) : Continues writer writer := ⟨rfl,rfl,rfl,rfl,fun _ _ => rfl⟩

theorem Continues.trans {first second third : FactStoreWriter} (one : Continues first second) (two : Continues second third) :
    Continues first third where
  target := two.target.trans one.target
  tmp := two.tmp.trans one.tmp
  tableId := two.tableId.trans one.tableId
  pipelineHash := two.pipelineHash.trans one.pipelineHash
  files path other := (two.files path (one.tmp ▸ other)).trans (one.files path other)

theorem receive_cases (writer : FactStoreWriter) :
    writer.receive = writer ∧ (writer.queue = [] ∨ ∃ reason, writer.thread = .error reason) ∨
    ∃ state command rest, writer.thread = .ok state ∧ writer.queue = command :: rest ∧
      writer.receive.thread = state.process command ∧ writer.receive.stringPool = writer.stringPool ∧
      ((∃ next, state.process command = .ok next) → writer.receive.queue = rest) ∧ Continues writer writer.receive := by
  unfold FactStoreWriter.receive
  cases running : writer.thread with
  | error reason => exact .inl ⟨rfl,.inr ⟨reason,rfl⟩⟩
  | ok state =>
    cases sent : writer.queue with
    | nil => exact .inl ⟨rfl,.inl rfl⟩
    | cons command rest =>
      refine .inr ⟨state,command,rest,rfl,rfl,?_⟩
      dsimp only
      cases processed : state.process command with
      | ok next =>
        exact ⟨rfl,rfl,fun _ => rfl,rfl,rfl,rfl,rfl,fun path other => Function.update_of_ne other _ _⟩
      | error reason =>
        refine ⟨rfl,rfl,fun impossible => ?_,rfl,rfl,rfl,rfl,fun path other => Function.update_of_ne other _ _⟩
        obtain ⟨next,same⟩ := impossible
        cases same

theorem receives_spec {turns : List WriteCmd} {writer : FactStoreWriter} (enough : writer.queue.length ≤ turns.length) :
    Continues writer (turns.foldl (fun writer _ => writer.receive) writer) ∧
      (turns.foldl (fun writer _ => writer.receive) writer).stringPool = writer.stringPool ∧
      (turns.foldl (fun writer _ => writer.receive) writer).thread = writer.thread.bind (consume writer.queue) := by
  induction turns generalizing writer with
  | nil =>
    have empty : writer.queue = [] := List.length_eq_zero_iff.mp (Nat.le_zero.mp enough)
    refine ⟨.refl writer,rfl,?_⟩
    rw [List.foldl_nil,empty]
    cases writer.thread <;> rfl
  | cons turn turns ih =>
    rw [List.foldl_cons]
    rcases receive_cases writer with idle | moved
    · rw [idle.1]
      rcases idle.2 with empty | ended
      · exact ih (by rw [empty]; exact Nat.zero_le _)
      · -- The thread has ended, whatever is still queued.
        obtain ⟨reason,stopped⟩ := ended
        clear ih enough
        have still : ∀ turns : List WriteCmd, turns.foldl (fun writer _ => writer.receive) writer = writer := by
          intro turns
          induction turns with
          | nil => rfl
          | cons turn turns ih =>
            rw [List.foldl_cons,idle.1]
            exact ih
        rw [still turns,stopped]
        exact ⟨.refl writer,rfl,rfl⟩
    · obtain ⟨state,command,rest,running,queued,processed,pool,moved,continues⟩ := moved
      rw [running,queued]
      change _ ∧ _ ∧ _ = consume (command :: rest) state
      rw [consume]
      rw [queued,List.length_cons,List.length_cons] at enough
      cases step : state.process command with
      | ok next =>
        have later := @ih writer.receive (by rw [moved ⟨next,step⟩]; omega)
        rw [processed,step,moved ⟨next,step⟩,pool] at later
        exact ⟨continues.trans later.1,later.2⟩
      | error reason =>
        have emptied : writer.receive.queue = [] := by
          unfold FactStoreWriter.receive
          rw [running,queued]
          dsimp only
          rw [step]
        have later := @ih writer.receive (by rw [emptied]; exact Nat.zero_le _)
        rw [processed,step,pool] at later
        exact ⟨continues.trans later.1,later.2⟩

theorem drain_spec (writer : FactStoreWriter) : Continues writer writer.drain ∧
    writer.drain.stringPool = writer.stringPool ∧ writer.drain.thread = writer.thread.bind (consume writer.queue) :=
  receives_spec (Nat.le_refl _)

-- A session that follows a fresh writer: its thread has taken a first part of the
-- accepted commands, and its pool resolves every id given out.
structure Follows (start : FactStoreWriter) (state : ThreadState) (session : Session) : Prop where
  continues : Continues start session.writer
  thread : ∃ taken rest, session.sent = taken ++ rest ∧ consume taken state = session.writer.thread ∧
    ((∃ now, session.writer.thread = .ok now) → rest = session.writer.queue)
  strings : ∃ texts, Pooled session.writer.stringPool texts ∧ ∀ pair ∈ session.returned, texts[pair.2.toNat]? = some pair.1

section
variable {start : FactStoreWriter} {state : ThreadState} {session : Session}

section
variable (follows : Follows start state session)
include follows

theorem Follows.accept (command : WriteCmd)
    {result : Except FactStoreError FactStoreWriter}
    (sent : ∀ writer, result = .ok writer → session.writer.send command = .ok writer) :
    Follows start state (session.accept command result) := by
  cases result with
  | error reason => exact follows
  | ok writer =>
    have done := sent writer rfl
    unfold FactStoreWriter.send at done
    split at done
    · rename_i now running
      cases done
      obtain ⟨taken,rest,split,ran,queued⟩ := follows.thread
      refine ⟨follows.continues.trans ⟨rfl,rfl,rfl,rfl,fun _ _ => rfl⟩,⟨taken,rest ++ [command],?_,ran,fun _ => ?_⟩,
        follows.strings⟩
      · rw [← List.append_assoc,← split]
        rfl
      · rw [queued ⟨now,running⟩]
        rfl
    · cases done

theorem Follows.intern (s : Text) : Follows start state (session.step (.intern s)) := by
  obtain ⟨texts,pooled,known⟩ := follows.strings
  unfold Session.step FactStoreWriter.intern
  dsimp only
  cases interned : session.writer.stringPool.intern s with
  | none => exact follows
  | some found =>
    obtain ⟨id,pool⟩ := found
    obtain ⟨later,now,resolved⟩ := pooled.intern interned
    refine ⟨follows.continues.trans ⟨rfl,rfl,rfl,rfl,fun _ _ => rfl⟩,follows.thread,texts ++ later,now,fun pair member => ?_⟩
    rcases List.mem_append.mp member with earlier | last
    · have old := known pair earlier
      obtain ⟨below,_⟩ := List.getElem?_eq_some_iff.mp old
      rw [List.getElem?_append_left below,old]
    · cases List.mem_singleton.mp last
      exact resolved

theorem Follows.receive : Follows start state (session.step .receive) := by
  rcases receive_cases session.writer with idle | moved
  · have same : session.step .receive = session := by
      change {session with writer := session.writer.receive} = session
      rw [idle.1]
    rw [same]
    exact follows
  · obtain ⟨now,command,later,running,queued,processed,pool,taking,continues⟩ := moved
    obtain ⟨taken,rest,split,ran,waiting⟩ := follows.thread
    have next : rest = command :: later := (waiting ⟨now,running⟩).trans queued
    refine ⟨follows.continues.trans continues,⟨taken ++ [command],later,?_,?_,fun ok => ?_⟩,?_⟩
    · rw [List.append_assoc,List.singleton_append,← next]
      exact split
    · change _ = session.writer.receive.thread
      rw [consume_append,ran,running,processed]
      change consume [command] now = _
      rw [consume]
      cases now.process command <;> rfl
    · obtain ⟨after,ok⟩ := ok
      exact (taking ⟨after,processed.symm.trans ok⟩).symm
    · change ∃ texts, Pooled session.writer.receive.stringPool texts ∧ _
      rw [pool]
      exact follows.strings

theorem Follows.step (call : Call) : Follows start state (session.step call) := by
  cases call with
  | intern s => exact follows.intern s
  | add key bodyHash payload =>
    refine follows.accept _ fun writer ok => ?_
    unfold FactStoreWriter.add FactStoreWriter.addOwned at ok
    split at ok
    · exact ok
    · cases ok
  | addStreamed key bodyHash encode => exact follows.accept _ fun _ ok => ok
  | receive => exact follows.receive

end

theorem follows_run (running : start.thread = .ok state) (idle : start.queue = []) (empty : start.stringPool = .new)
    (calls : List Call) : Follows start state (Session.run start calls) := by
  have grown : ∀ (calls : List Call) (session : Session), Follows start state session →
      Follows start state (calls.foldl Session.step session) := by
    intro calls
    induction calls with
    | nil => exact fun _ follows => follows
    | cons call rest ih => exact fun session follows => ih _ (follows.step call)
  refine grown calls _ ⟨.refl start,⟨[],[],rfl,running.symm,fun _ => idle.symm⟩,[],?_,fun _ member => ?_⟩
  · rw [empty]
    exact pooled_new
  · exact absurd member List.not_mem_nil

theorem Follows.drained (follows : Follows start state session) :
    session.writer.drain.thread = consume session.sent state := by
  obtain ⟨taken,rest,split,ran,queued⟩ := follows.thread
  rw [(drain_spec session.writer).2.2,split,consume_append,ran]
  cases now : session.writer.thread with
  | ok current => rw [queued ⟨current,now⟩]
  | error reason => rfl

theorem Follows.ended (follows : Follows start state session) {reason : ThreadEnd}
    (stopped : session.writer.thread = .error reason) : consume session.sent state = .error reason := by
  rw [← follows.drained,(drain_spec session.writer).2.2,stopped]
  rfl

end

end BonsaiNinja.FactStore
