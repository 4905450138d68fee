import BonsaiNinja.Idg.CrossCalls
import BonsaiNinja.Library.SortedPages

namespace BonsaiNinja.Idg
open Library
variable {index : FieldCrossCallIndex}
variable {segment : IdgSegment}

theorem lookup_numbered {γ : Type} (numbered : Option Place → Option γ) (places : List (Option Place)) (start node : Nat) :
    ((places.zipIdx start).filterMap fun row => (numbered row.1).map (row.2,·)).lookup node =
      if start ≤ node then (places[node - start]?).bind numbered else none := by
  induction places generalizing start with
  | nil => simp
  | cons place rest ih =>
    have later := ih (start + 1)
    rw [List.zipIdx_cons,List.filterMap_cons]
    rcases Nat.lt_trichotomy node start with lower | same | upper
    · have differs : (node == start) = false := by simp; omega
      rw [if_neg (by omega)] at later ⊢
      cases numbered place with
      | none => exact later
      | some value => rw [Option.map_some,List.lookup_cons,differs]; exact later
    · subst same
      rw [if_neg (by omega)] at later
      rw [if_pos (Nat.le_refl _),Nat.sub_self,List.getElem?_cons_zero,Option.bind_some]
      cases numbered place with
      | none => exact later
      | some value => rw [Option.map_some,List.lookup_cons,beq_self_eq_true]
    · have differs : (node == start) = false := by simp; omega
      have position : node - start = node - (start + 1) + 1 := by omega
      rw [if_pos (by omega)] at later ⊢
      rw [position,List.getElem?_cons_succ]
      cases numbered place with
      | none => exact later
      | some value => rw [Option.map_some,List.lookup_cons,differs]; exact later

def argumentOf : Option Place → Option (Span × Nat)
  | some (.callArg site idx) => some (site.span,idx)
  | _ => none

def parameterOf : Option Place → Option Nat
  | some (.param idx) => some idx
  | _ => none

theorem callArgsOf_lookup (places : List (Option Place)) (node : Nat) :
    (callArgsOf places).lookup node = (places[node]?).bind argumentOf := by
  have rows := lookup_numbered argumentOf places 0 node
  rw [if_pos (Nat.zero_le _),Nat.sub_zero] at rows
  rw [← rows,callArgsOf]
  refine congrArg _ (congrArg (List.filterMap · _) (funext fun row => ?_))
  obtain ⟨place,_⟩ := row
  cases place with
  | none => rfl
  | some place => cases place <;> rfl

theorem paramsOf_lookup (places : List (Option Place)) (node : Nat) :
    (paramsOf places).lookup node = (places[node]?).bind parameterOf := by
  have rows := lookup_numbered parameterOf places 0 node
  rw [if_pos (Nat.zero_le _),Nat.sub_zero] at rows
  rw [← rows,paramsOf]
  refine congrArg _ (congrArg (List.filterMap · _) (funext fun row => ?_))
  obtain ⟨place,_⟩ := row
  cases place with
  | none => rfl
  | some place => cases place <;> rfl

variable {workspace : IdgWorkspace}

theorem wsNodeFor_view (readable : workspace.Readable) {id : SegmentId}
    (view : (id,segment) ∈ workspace.segmentViews) (localNode : NodeId) :
    (buildUnified workspace).wsNodeFor id localNode =
        if localNode < segment.nodes.length then some (((nodeCounts workspace).take id).sum + localNode) else none := by
  obtain ⟨registered,found⟩ := IdgWorkspace.mem_segmentViews.mp view
  have placed := segmentViews_at readable id
  rw [if_pos registered,found,Option.map_some] at placed
  have inside : id < workspace.segmentViews.length := by rw [segmentViews_length readable]; exact registered
  have count : (nodeCounts workspace)[id]? = some segment.nodes.length := by
    rw [nodeCounts,List.getElem?_map,placed]
    rfl
  have next := List.sum_take_succ (nodeCounts workspace) id (List.getElem?_eq_some_iff.mp count).1
  rw [(List.getElem?_eq_some_iff.mp count).2] at next
  change wsNodeForSegmentBases (segmentBasesOf workspace) id localNode = _
  rw [wsNodeForSegmentBases,segmentBases_at,segmentBases_at,if_pos (Nat.le_of_lt inside),if_pos (Nat.succ_le_of_lt inside)]
  dsimp only
  rw [next,Nat.add_sub_cancel_left]

structure Tabled (unified : UnifiedAddressSpace) (node : NodeId) (func : FuncId) (place : Option Place) : Prop where
  func : unified.wsNodeFunc node = some func
  callArg : unified.callArgs.lookup node = argumentOf place
  param : unified.params.lookup node = parameterOf place
  callRet : unified.hasBoundary node nodeBoundaryCallRet = (nodeBoundary place == nodeBoundaryCallRet)

theorem tabled_view (readable : workspace.Readable) {id : SegmentId}
    (view : (id,segment) ∈ workspace.segmentViews) {localNode : NodeId} {node : IdgNode}
    (found : segment.nodes[localNode]? = some node) :
    ∃ global, (buildUnified workspace).wsNodeFor id localNode = some global ∧
      Tabled (buildUnified workspace) global node.func (segment.placeOf node) := by
  obtain ⟨registered,read⟩ := IdgWorkspace.mem_segmentViews.mp view
  have listed := segmentViews_at readable id
  rw [if_pos registered,read,Option.map_some] at listed
  have inside := (List.getElem?_eq_some_iff.mp found).1
  refine ⟨_,(wsNodeFor_view readable view localNode).trans (if_pos inside),?_⟩
  have placed : PlacedAt workspace id segment localNode (((nodeCounts workspace).take id).sum + localNode) :=
    ⟨listed,inside,rfl⟩
  have row : (nodePlaces workspace)[((nodeCounts workspace).take id).sum + localNode]? = some (segment.placeOf node) := by
    rw [nodePlaces,placed.row fun segment node => segment.placeOf node,found]
    rfl
  refine ⟨?_,?_,?_,?_⟩
  · rw [placed.func,found]
    rfl
  · change (callArgsOf (nodePlaces workspace)).lookup _ = _
    rw [callArgsOf_lookup,row,Option.bind_some]
  · change (paramsOf (nodePlaces workspace)).lookup _ = _
    rw [paramsOf_lookup,row,Option.bind_some]
  · have boundary : (buildUnified workspace).nodeBoundaries[((nodeCounts workspace).take id).sum + localNode]? =
        some (nodeBoundary (segment.placeOf node)) := by
      change ((nodePlaces workspace).map nodeBoundary)[_]? = _
      rw [List.getElem?_map,row]
      rfl
    rw [UnifiedAddressSpace.hasBoundary,boundary]
    simp only [Option.some.injEq]
    rfl

def Computed (workspace : IdgWorkspace) : FieldCrossCallKey → Option Nat → Prop
  | .callArg id caller callSpan base, answer => ∃ segment, workspace.segmentView id = some segment ∧
      answer = callArgIndexForStorageBase segment caller callSpan base
  | .param id callee base, answer => ∃ segment, workspace.segmentView id = some segment ∧
      answer = paramIndexForStorageBase segment callee base

theorem computed_agree (key : FieldCrossCallKey) (left right : Option Nat) (first : Computed workspace key left)
    (second : Computed workspace key right) : left = right := by
  cases key with
  | callArg id caller callSpan base | param id callee base =>
    obtain ⟨segment,read,same⟩ := first
    obtain ⟨other,read',same'⟩ := second
    cases Option.some.inj (read.symm.trans read')
    exact same.trans same'.symm

def SegmentPage.Viewed (page : SegmentPage) (workspace : IdgWorkspace) : Prop :=
  (page.id,page.segment) ∈ workspace.segmentViews

theorem liftCallArgEdge_computed {source target : SegmentPage} (sourceRead : workspace.segmentView source.id = some source.segment)
    (targetRead : workspace.segmentView target.id = some target.segment) (edge : IdgEdge) (key : FieldCrossCallKey) (answer : Option Nat)
    (asked : (liftCallArgEdge source target edge).Asks key answer) : Computed workspace key answer := by
  unfold liftCallArgEdge at asked
  split at asked
  · split at asked
    · exact absurd asked Memo.not_asks_pure
    · split at asked
      · cases Memo.asks_bind asked with
        | inr asked => exact absurd asked Memo.not_asks_pure
        | inl asked =>
          unfold fieldCrossCallArgAndParamIndices at asked
          split at asked
          · cases Memo.asks_bind asked with
            | inl asked =>
              obtain ⟨rfl,same⟩ := Memo.asks_lookup asked
              exact ⟨source.segment,sourceRead,same⟩
            | inr asked =>
              cases Memo.asks_bind asked with
              | inl asked =>
                obtain ⟨rfl,same⟩ := Memo.asks_lookup asked
                exact ⟨target.segment,targetRead,same⟩
              | inr asked => exact absurd asked Memo.not_asks_pure
          · exact absurd asked Memo.not_asks_pure
      · exact absurd asked Memo.not_asks_pure
  · exact absurd asked Memo.not_asks_pure

theorem liftCallArgEdge_run {source target : SegmentPage} (fromView : source.Viewed workspace)
    (toView : target.Viewed workspace) (edge : IdgEdge)
    (coherent : Memo.Within index (Computed workspace)) :
    ((liftCallArgEdge source target edge).run index).1 = (liftCallArgEdge source target edge).plain :=
  (Memo.run_plain computed_agree _ index (liftCallArgEdge_computed (IdgWorkspace.mem_segmentViews.mp fromView).2
    (IdgWorkspace.mem_segmentViews.mp toView).2 edge) coherent).1

-- Where the tags tell as much as the places: a call result or a yield does not
-- enter a parameter as an ordinary argument, only a call result enters one as a
-- callback, and the places behind an outbound edge are known.
structure TagsSuffice (edge : EdgeMeta) (source target : IdgNode) (fromPlace toPlace : Option Place) : Prop where
  argument : edge.kind = .interCallArg → (parameterOf toPlace).isSome = true → nodeBoundary fromPlace ≠ nodeBoundaryCallRet
  callback : edge.kind = .interSourceCallback → (parameterOf toPlace).isSome = true → ∃ site, fromPlace = some (.callRet site)
  outbound : outboundRow source.func target.func edge ≠ none → fromPlace.isSome = true ∧ toPlace.isSome = true

theorem endpointOf_found {localNode : NodeId} {node : IdgNode}
    (found : segment.nodes[localNode]? = some node) :
    endpointOf segment localNode = (segment.placeOf node).map (Endpoint.mk node.func) := by
  rw [endpointOf,found]
  simp only [Option.bind_eq_bind,Option.bind_some]
  cases segment.placeOf node <;> rfl

section
variable {source target : SegmentPage} {edge : IdgEdge} {caller callee : Endpoint}

theorem lift_missing (missing : endpointOf source.segment edge.fromNode = none ∨ endpointOf target.segment edge.toNode = none) :
    (liftCallArgEdge source target edge).plain = none := by
  unfold liftCallArgEdge
  split
  · rename_i first second
    rw [first,second] at missing
    cases missing with
    | inl absent => cases absent
    | inr absent => cases absent
  · rfl

variable (first : endpointOf source.segment edge.fromNode = some caller)
  (second : endpointOf target.segment edge.toNode = some callee)
include first second

theorem lift_positional {row : CrossCallEdge} (positional : positionalRow caller callee edge.edgeMeta = some row) :
    (liftCallArgEdge source target edge).plain = some row := by
  unfold liftCallArgEdge
  simp only [first,second,positional]
  rfl

theorem lift_slots (positional : positionalRow caller callee edge.edgeMeta = none)
    (crosses : (edge.edgeMeta.kind = .interCallArg ∨ edge.edgeMeta.kind = .interFieldCallArg) ∧ caller.func ≠ callee.func) :
    ∃ row, (liftCallArgEdge source target edge).plain = some row ∧
      row.relation = if edge.edgeMeta.kind = .interFieldCallArg then .argument else .capture := by
  unfold liftCallArgEdge
  simp only [first,second,positional,if_pos crosses]
  unfold fieldCrossCallArgAndParamIndices
  split
  · exact ⟨_,rfl,rfl⟩
  · exact ⟨_,rfl,rfl⟩

theorem lift_outbound (positional : positionalRow caller callee edge.edgeMeta = none)
    (stays : ¬((edge.edgeMeta.kind = .interCallArg ∨ edge.edgeMeta.kind = .interFieldCallArg) ∧ caller.func ≠ callee.func)) :
    (liftCallArgEdge source target edge).plain = outboundRow caller.func callee.func edge.edgeMeta := by
  unfold liftCallArgEdge
  simp only [first,second,positional,if_neg stays]
  rfl

end

def CompactCrossCallLift.Agrees (lift : CompactCrossCallLift) (row : Option CrossCallEdge) : Prop :=
  lift = .needsSegmentPlaces ∨ lift = .complete row

theorem agrees_complete {row other : Option CrossCallEdge} : (CompactCrossCallLift.complete row).Agrees other ↔ row = other := by
  simp [CompactCrossCallLift.Agrees]

section
variable {unified : UnifiedAddressSpace} {origin goal : NodeId} {fromNode toNode : IdgNode} {fromPlace toPlace : Option Place}
  {source target : SegmentPage} {edge : IdgEdge}
  (fromEnd : endpointOf source.segment edge.fromNode = fromPlace.map (Endpoint.mk fromNode.func))
  (toEnd : endpointOf target.segment edge.toNode = toPlace.map (Endpoint.mk toNode.func))

section
include fromEnd toEnd

theorem lift_plain_outbound (positional : ∀ p q, fromPlace = some p → toPlace = some q →
      positionalRow ⟨fromNode.func,p⟩ ⟨toNode.func,q⟩ edge.edgeMeta = none)
    (stays : ¬((edge.edgeMeta.kind = .interCallArg ∨ edge.edgeMeta.kind = .interFieldCallArg) ∧ fromNode.func ≠ toNode.func)) :
    (liftCallArgEdge source target edge).plain =
      if fromPlace.isSome = true ∧ toPlace.isSome = true then outboundRow fromNode.func toNode.func edge.edgeMeta else none := by
  cases fromPlace with
  | none => exact lift_missing (.inl fromEnd)
  | some p =>
    cases toPlace with
    | none => exact lift_missing (.inr toEnd)
    | some q =>
      rw [if_pos ⟨rfl,rfl⟩]
      exact lift_outbound fromEnd toEnd (positional p q rfl rfl) stays

theorem lift_plain_inward (inward : outboundRow fromNode.func toNode.func edge.edgeMeta = none)
    (positional : ∀ p q, fromPlace = some p → toPlace = some q →
      positionalRow ⟨fromNode.func,p⟩ ⟨toNode.func,q⟩ edge.edgeMeta = none)
    (stays : ¬((edge.edgeMeta.kind = .interCallArg ∨ edge.edgeMeta.kind = .interFieldCallArg) ∧ fromNode.func ≠ toNode.func)) :
    (liftCallArgEdge source target edge).plain = none := by
  rw [lift_plain_outbound fromEnd toEnd positional stays,inward]
  split <;> rfl

-- An edge whose places the tags do not settle goes to the places.
theorem unsettled_agrees {lift : CompactCrossCallLift} (inward : outboundRow fromNode.func toNode.func edge.edgeMeta = none)
    (positional : ∀ p q, fromPlace = some p → toPlace = some q →
      positionalRow ⟨fromNode.func,p⟩ ⟨toNode.func,q⟩ edge.edgeMeta = none)
    (lifted : lift = if fromNode.func ≠ toNode.func then .needsSegmentPlaces else .complete none) :
    lift.Agrees (liftCallArgEdge source target edge).plain := by
  rw [lifted]
  by_cases crosses : fromNode.func ≠ toNode.func
  · exact .inl (if_pos crosses)
  · rw [if_neg crosses,agrees_complete]
    exact (lift_plain_inward fromEnd toEnd inward positional fun both => crosses both.2).symm

end

-- Only a formal parameter takes a row with slots, and only from an argument or
-- from a call result.
theorem positionalRow_none {caller callee : Endpoint} {edge : EdgeMeta}
    (absent : (parameterOf (some callee.place)).isSome = true →
      ¬(edge.kind = .interCallArg ∧ (argumentOf (some caller.place)).isSome = true) ∧
      ¬(edge.kind = .interSourceCallback ∧ ∃ site, caller.place = .callRet site)) : positionalRow caller callee edge = none := by
  unfold positionalRow
  split
  · rename_i site idx paramIdx kind from_ to_
    rw [from_,to_] at absent
    exact absurd ⟨kind,rfl⟩ (absent rfl).1
  · rename_i site paramIdx kind from_ to_
    rw [from_,to_] at absent
    exact absurd ⟨kind,site,rfl⟩ (absent rfl).2
  · rfl

theorem parameterOf_some {place : Option Place} {idx : Nat} (slot : parameterOf place = some idx) :
    place = some (.param idx) := by
  unfold parameterOf at slot
  split at slot
  · cases slot; rfl
  · cases slot

theorem argumentOf_some {place : Option Place} {site : Span} {idx : Nat} (slot : argumentOf place = some (site,idx)) :
    place = some (.callArg ⟨site⟩ idx) := by
  unfold argumentOf at slot
  split at slot
  · cases slot; rfl
  · cases slot

variable (fromTabled : Tabled unified origin fromNode.func fromPlace) (toTabled : Tabled unified goal toNode.func toPlace)
include fromEnd toEnd

include fromTabled toTabled in
theorem argument_agrees (kind : edge.edgeMeta.kind = .interCallArg) :
    (liftPlaced unified origin goal fromNode.func toNode.func edge.edgeMeta).Agrees (liftCallArgEdge source target edge).plain ↔
      TagsSuffice edge.edgeMeta fromNode toNode fromPlace toPlace := by
  have inward : outboundRow fromNode.func toNode.func edge.edgeMeta = none := by simp [outboundRow,kind]
  have sufficient (tags : (parameterOf toPlace).isSome = true → nodeBoundary fromPlace ≠ nodeBoundaryCallRet) :
      TagsSuffice edge.edgeMeta fromNode toNode fromPlace toPlace :=
    ⟨fun _ => tags,(fun other => by simp [kind] at other),fun outward => absurd inward outward⟩
  cases slot : parameterOf toPlace with
  | none =>
    refine iff_of_true (unsettled_agrees fromEnd toEnd inward (fun p q _ held => positionalRow_none fun some => ?_) ?_)
      (sufficient fun some => by simp [slot] at some)
    · rw [← held,slot] at some
      cases some
    · unfold liftPlaced
      rw [if_pos kind,toTabled.param,slot]
      cases unified.callArgs.lookup origin <;> cases unified.hasBoundary origin nodeBoundaryCallRet <;> rfl
  | some idx =>
    have param := parameterOf_some slot
    cases held : argumentOf fromPlace with
    | some argument =>
      obtain ⟨site,arg⟩ := argument
      have place := argumentOf_some held
      refine iff_of_true (.inr ?_) (sufficient fun _ same => by simp [place,nodeBoundary,nodeBoundaryCallRet] at same)
      rw [place,Option.map_some] at fromEnd
      rw [param,Option.map_some] at toEnd
      have positional : positionalRow ⟨fromNode.func,.callArg ⟨site⟩ arg⟩ ⟨toNode.func,.param idx⟩ edge.edgeMeta =
          some ⟨fromNode.func,toNode.func,site,arg,idx,edge.edgeMeta.callKind,.argument⟩ := by
        simp only [positionalRow,kind]
      rw [lift_positional fromEnd toEnd positional]
      unfold liftPlaced
      rw [if_pos kind,fromTabled.callArg,toTabled.param,held,slot]
    | none =>
      have positional : ∀ p q, fromPlace = some p → toPlace = some q →
          positionalRow ⟨fromNode.func,p⟩ ⟨toNode.func,q⟩ edge.edgeMeta = none := by
        intro p q here _
        refine positionalRow_none fun _ => ⟨fun both => ?_,fun both => ?_⟩
        · rw [← here,held] at both
          cases both.2
        · rw [kind] at both
          cases both.1
      by_cases result : nodeBoundary fromPlace = nodeBoundaryCallRet
      · refine iff_of_false (fun agrees => ?_) fun suffice => suffice.argument kind (by rw [slot]; rfl) result
        have lifted : liftPlaced unified origin goal fromNode.func toNode.func edge.edgeMeta =
            .complete (some ⟨fromNode.func,toNode.func,edge.edgeMeta.viaSpan,noSlot,idx,edge.edgeMeta.callKind,.callback⟩) := by
          unfold liftPlaced
          rw [if_pos kind,fromTabled.callArg,toTabled.param,fromTabled.callRet,held,slot,beq_iff_eq.mpr result]
        rw [lifted,agrees_complete] at agrees
        by_cases crosses : fromNode.func ≠ toNode.func
        · cases place : fromPlace with
          | none => rw [place] at result; cases result
          | some p =>
            rw [place,Option.map_some] at fromEnd
            rw [param,Option.map_some] at toEnd
            obtain ⟨row,read,relation⟩ := lift_slots fromEnd toEnd (positional p _ place param) ⟨.inl kind,crosses⟩
            rw [read] at agrees
            rw [← Option.some.inj agrees,kind] at relation
            cases relation
        · rw [lift_plain_inward fromEnd toEnd inward positional fun both => crosses both.2] at agrees
          cases agrees
      · refine iff_of_true (unsettled_agrees fromEnd toEnd inward positional ?_) (sufficient fun _ => result)
        · unfold liftPlaced
          rw [if_pos kind,fromTabled.callArg,toTabled.param,fromTabled.callRet,held,slot,beq_eq_false_iff_ne.mpr result]

include toTabled in
theorem callback_agrees (kind : edge.edgeMeta.kind = .interSourceCallback) :
    (liftPlaced unified origin goal fromNode.func toNode.func edge.edgeMeta).Agrees (liftCallArgEdge source target edge).plain ↔
      TagsSuffice edge.edgeMeta fromNode toNode fromPlace toPlace := by
  have inward : outboundRow fromNode.func toNode.func edge.edgeMeta = none := by simp [outboundRow,kind]
  have stays : ¬((edge.edgeMeta.kind = .interCallArg ∨ edge.edgeMeta.kind = .interFieldCallArg) ∧ fromNode.func ≠ toNode.func) := by
    simp [kind]
  have sufficient (tags : (parameterOf toPlace).isSome = true → ∃ site, fromPlace = some (.callRet site)) :
      TagsSuffice edge.edgeMeta fromNode toNode fromPlace toPlace :=
    ⟨(fun other => by simp [kind] at other),fun _ => tags,fun outward => absurd inward outward⟩
  have lifted : liftPlaced unified origin goal fromNode.func toNode.func edge.edgeMeta =
      .complete ((parameterOf toPlace).map fun idx =>
        ⟨fromNode.func,toNode.func,edge.edgeMeta.viaSpan,noSlot,idx,edge.edgeMeta.callKind,.callback⟩) := by
    unfold liftPlaced
    rw [if_neg (by simp [kind]),if_pos kind,toTabled.param]
  rw [lifted,agrees_complete]
  cases slot : parameterOf toPlace with
  | none =>
    refine iff_of_true (lift_plain_inward fromEnd toEnd inward (fun p q _ held => positionalRow_none fun some => ?_) stays).symm
      (sufficient fun some => by simp [slot] at some)
    rw [← held,slot] at some
    cases some
  | some idx =>
    have param := parameterOf_some slot
    by_cases result : ∃ site, fromPlace = some (.callRet site)
    · refine iff_of_true ?_ (sufficient fun _ => result)
      obtain ⟨site,place⟩ := result
      rw [place,Option.map_some] at fromEnd
      rw [param,Option.map_some] at toEnd
      have positional : positionalRow ⟨fromNode.func,.callRet site⟩ ⟨toNode.func,.param idx⟩ edge.edgeMeta =
          some ⟨fromNode.func,toNode.func,edge.edgeMeta.viaSpan,noSlot,idx,edge.edgeMeta.callKind,.callback⟩ := by
        simp only [positionalRow,kind]
      rw [lift_positional fromEnd toEnd positional]
      rfl
    · refine iff_of_false (fun agrees => ?_) fun suffice => result (suffice.callback kind (by rw [slot]; rfl))
      rw [lift_plain_inward fromEnd toEnd inward (fun p q here _ => positionalRow_none fun _ => ⟨fun both => ?_,fun both => ?_⟩)
        stays] at agrees
      · cases agrees
      · rw [kind] at both
        cases both.1
      · obtain ⟨_,site,held⟩ := both
        exact result ⟨site,held ▸ here⟩

theorem field_agrees (kind : edge.edgeMeta.kind = .interFieldCallArg) :
    (liftPlaced unified origin goal fromNode.func toNode.func edge.edgeMeta).Agrees (liftCallArgEdge source target edge).plain ↔
      TagsSuffice edge.edgeMeta fromNode toNode fromPlace toPlace := by
  have inward : outboundRow fromNode.func toNode.func edge.edgeMeta = none := by simp [outboundRow,kind]
  refine iff_of_true (unsettled_agrees fromEnd toEnd inward (fun p q _ _ => positionalRow_none fun _ =>
    ⟨fun both => ?_,fun both => ?_⟩) ?_) ⟨(fun other => by simp [kind] at other),(fun other => by simp [kind] at other),
    fun outward => absurd inward outward⟩
  · rw [kind] at both
    cases both.1
  · rw [kind] at both
    cases both.1
  · unfold liftPlaced
    rw [if_neg (by simp [kind]),if_neg (by simp [kind]),if_pos kind]

theorem outbound_agrees (argument : edge.edgeMeta.kind ≠ .interCallArg) (callback : edge.edgeMeta.kind ≠ .interSourceCallback)
    (field : edge.edgeMeta.kind ≠ .interFieldCallArg) :
    (liftPlaced unified origin goal fromNode.func toNode.func edge.edgeMeta).Agrees (liftCallArgEdge source target edge).plain ↔
      TagsSuffice edge.edgeMeta fromNode toNode fromPlace toPlace := by
  have lifted : liftPlaced unified origin goal fromNode.func toNode.func edge.edgeMeta =
      .complete (outboundRow fromNode.func toNode.func edge.edgeMeta) := by
    unfold liftPlaced outboundRow
    rw [if_neg argument,if_neg callback,if_neg field]
    split
    · rfl
    · split <;> rfl
  rw [lifted,agrees_complete,lift_plain_outbound fromEnd toEnd
    (fun p q _ _ => positionalRow_none fun _ => ⟨fun both => argument both.1,fun both => callback both.1⟩)
    fun both => both.1.elim argument field]
  constructor
  · intro same
    refine ⟨fun other => absurd other argument,fun other => absurd other callback,fun outward => ?_⟩
    split at same
    · assumption
    · exact absurd same outward
  · intro suffice
    split
    · rfl
    · rename_i unknown
      by_contra outward
      exact unknown (suffice.outbound outward)

include fromTabled toTabled in
theorem placed_agrees :
    (liftPlaced unified origin goal fromNode.func toNode.func edge.edgeMeta).Agrees (liftCallArgEdge source target edge).plain ↔
      TagsSuffice edge.edgeMeta fromNode toNode fromPlace toPlace := by
  by_cases argument : edge.edgeMeta.kind = .interCallArg
  · exact argument_agrees fromEnd toEnd fromTabled toTabled argument
  · by_cases callback : edge.edgeMeta.kind = .interSourceCallback
    · exact callback_agrees fromEnd toEnd toTabled callback
    · by_cases field : edge.edgeMeta.kind = .interFieldCallArg
      · exact field_agrees fromEnd toEnd field
      · exact outbound_agrees fromEnd toEnd argument callback field

end

def SharedEvidence (source target : IdgSegment) (edge : IdgEdge) : Prop :=
  ∀ fromNode toNode, source.nodes[edge.fromNode]? = some fromNode → target.nodes[edge.toNode]? = some toNode →
    TagsSuffice edge.edgeMeta fromNode toNode (source.placeOf fromNode) (target.placeOf toNode)

def crossFileRow (unified : UnifiedAddressSpace) (source target : SegmentPage) (edge : IdgEdge) (index : FieldCrossCallIndex) :
    Option CrossCallEdge :=
  match liftCrossCallEdgeFromUnified unified source.id target.id edge with
  | .complete row => row
  | .needsSegmentPlaces => ((liftCallArgEdge source target edge).run index).1

theorem crossFileRow_eq_iff {unified : UnifiedAddressSpace} {source target : SegmentPage} {edge : IdgEdge} :
    crossFileRow unified source target edge index = ((liftCallArgEdge source target edge).run index).1 ↔
      (liftCrossCallEdgeFromUnified unified source.id target.id edge).Agrees ((liftCallArgEdge source target edge).run index).1 := by
  unfold crossFileRow
  cases liftCrossCallEdgeFromUnified unified source.id target.id edge with
  | complete row => exact agrees_complete.symm
  | needsSegmentPlaces => exact iff_of_true rfl (.inl rfl)

theorem lift_agrees_iff (readable : workspace.Readable) {source target : SegmentPage} (fromView : source.Viewed workspace)
    (toView : target.Viewed workspace) (edge : IdgEdge)
    (coherent : Memo.Within index (Computed workspace)) :
    (liftCrossCallEdgeFromUnified (buildUnified workspace) source.id target.id edge).Agrees
        ((liftCallArgEdge source target edge).run index).1 ↔ SharedEvidence source.segment target.segment edge := by
  rw [liftCallArgEdge_run fromView toView edge coherent]
  unfold liftCrossCallEdgeFromUnified
  cases first : source.segment.nodes[edge.fromNode]? with
  | none =>
    have outside := (wsNodeFor_view readable fromView edge.fromNode).trans
      (if_neg (Nat.not_lt.mpr (List.getElem?_eq_none_iff.mp first)))
    rw [outside]
    refine iff_of_true (agrees_complete.mpr (lift_missing (.inl ?_)).symm) fun fromNode _ found => ?_
    · rw [endpointOf,first]; rfl
    · rw [first] at found; cases found
  | some fromNode =>
    obtain ⟨origin,placed,fromTabled⟩ := tabled_view readable fromView first
    rw [placed]
    cases second : target.segment.nodes[edge.toNode]? with
    | none =>
      have outside := (wsNodeFor_view readable toView edge.toNode).trans
        (if_neg (Nat.not_lt.mpr (List.getElem?_eq_none_iff.mp second)))
      rw [outside]
      refine iff_of_true (agrees_complete.mpr (lift_missing (.inr ?_)).symm) fun _ toNode _ found => ?_
      · rw [endpointOf,second]; rfl
      · rw [second] at found; cases found
    | some toNode =>
      obtain ⟨goal,placed',toTabled⟩ := tabled_view readable toView second
      rw [placed']
      simp only [fromTabled.func,toTabled.func]
      rw [placed_agrees (endpointOf_found first) (endpointOf_found second) fromTabled toTabled]
      constructor
      · intro suffice from_ to_ found found'
        cases Option.some.inj (first.symm.trans found)
        cases Option.some.inj (second.symm.trans found')
        exact suffice
      · exact fun shared => shared fromNode toNode first second

-- One edge has one row, whether its ends share a segment or not, exactly where
-- the tags suffice.
theorem cross_call_evidence_iff (readable : workspace.Readable) {source target : SegmentPage} (fromView : source.Viewed workspace)
    (toView : target.Viewed workspace) (edge : IdgEdge) {index : FieldCrossCallIndex}
    (coherent : Memo.Within index (Computed workspace)) :
    ((liftCrossCallEdgeFromUnified (buildUnified workspace) source.id target.id edge).Agrees
        ((liftCallArgEdge source target edge).run index).1 ∧
      crossFileRow (buildUnified workspace) source target edge index = ((liftCallArgEdge source target edge).run index).1) ↔
    SharedEvidence source.segment target.segment edge := by
  rw [crossFileRow_eq_iff,and_self]
  exact lift_agrees_iff readable fromView toView edge coherent

section
variable {workspace : IdgWorkspace} (unified : UnifiedAddressSpace) {allowed : FuncScope} (links : List FieldFlowLink)

theorem liftAll_run {pendings : List PendingLift} (read : ∀ pending ∈ pendings,
      workspace.segmentView pending.source.id = some pending.source.segment ∧
        workspace.segmentView pending.target.id = some pending.target.segment) :
    ((liftAll allowed pendings).run Memo.empty).1 = pendings.flatMap fun pending =>
      ((liftCallArgEdge pending.source pending.target pending.edge).plain.toList.filter (rowIsAllowed allowed)).map
        fun row => (pending.fromWs,row) := by
  have asks (key : FieldCrossCallKey) (answer : Option Nat) (asked : (liftAll allowed pendings).Asks key answer) :
      Computed workspace key answer := by
    induction pendings with
    | nil => exact absurd asked Memo.not_asks_pure
    | cons pending rest ih =>
      rcases Memo.asks_bind asked with asked | asked
      · exact liftCallArgEdge_computed (read pending List.mem_cons_self).1 (read pending List.mem_cons_self).2 _ _ _ asked
      rcases Memo.asks_bind asked with asked | asked
      · exact ih (fun other listed => read other (List.mem_cons_of_mem _ listed)) asked
      · exact absurd asked Memo.not_asks_pure
  rw [(Memo.run_plain computed_agree _ _ asks Memo.empty_within).1]
  clear read asks
  induction pendings with
  | nil => rfl
  | cons pending rest ih =>
    rw [liftAll,Memo.plain_bind,Memo.plain_bind,ih,List.flatMap_cons]
    rfl

theorem lifts_read {pending : PendingLift}
    (listed : pending ∈ intraLifts workspace unified allowed ++ projectedLifts workspace unified allowed) :
    workspace.segmentView pending.source.id = some pending.source.segment ∧
      workspace.segmentView pending.target.id = some pending.target.segment := by
  rcases List.mem_append.mp listed with own | projected
  · simp only [intraLifts,crossCallSegments,List.mem_flatMap,List.mem_filterMap,Option.map_eq_some_iff] at own
    obtain ⟨_,⟨id,_,segment,read,rfl⟩,_,_,_,_,rfl⟩ := own
    exact ⟨read,read⟩
  · simp only [projectedLifts,List.mem_flatMap,List.mem_filterMap,List.mem_filter,Option.bind_eq_bind,Option.bind_eq_some_iff] at projected
    obtain ⟨_,_,_,_,_,_,_,read,_,read',same⟩ := projected
    cases same
    exact ⟨read,read'⟩

-- The slots shared by all edges of a build change no row: each is that of its edge lifted on its own.
theorem buildCrossCallsByFrom_exact (workspace : IdgWorkspace) (allowed : FuncScope) (fromWs : NodeId) :
    let rows := buildCrossCallsByFrom workspace unified allowed links fromWs
    rows.Pairwise (fun a b => before (crossCallKey b) (crossCallKey a) = false) ∧ rows.IsChain (· ≠ ·) ∧ ∀ row, row ∈ rows ↔
      (∃ pending ∈ intraLifts workspace unified allowed ++ projectedLifts workspace unified allowed, pending.fromWs = fromWs ∧
        (liftCallArgEdge pending.source pending.target pending.edge).plain = some row ∧ rowIsAllowed allowed row = true) ∨
      (fromWs,row) ∈ linkRows allowed links ++ completeRows workspace unified allowed := by
  have ordered := @List.pairwise_mergeSort CrossCallEdge (fun a b => !before (crossCallKey b) (crossCallKey a))
    (fun _ _ _ => not_before_trans _ _ _) (fun _ _ => not_before_total _ _)
    (((crossCallRows workspace unified allowed links).filter (·.1 = fromWs)).map (·.2))
  obtain ⟨kept,apart,_,members⟩ := Merging.dedupFrom_steps none
    ((((crossCallRows workspace unified allowed links).filter (·.1 = fromWs)).map (·.2)).mergeSort
      fun a b => !before (crossCallKey b) (crossCallKey a))
  refine ⟨(ordered.imp fun {a b} later => by simpa using later).sublist kept,apart,fun row => ?_⟩
  have listed : row ∈ buildCrossCallsByFrom workspace unified allowed links fromWs ↔
      (fromWs,row) ∈ crossCallRows workspace unified allowed links := by
    constructor
    · intro listed
      obtain ⟨pair,held,rfl⟩ := List.mem_map.mp (List.mem_mergeSort.mp (kept.subset listed))
      obtain ⟨held,same⟩ := List.mem_filter.mp held
      rwa [← of_decide_eq_true same]
    · intro listed
      refine (members row (List.mem_mergeSort.mpr (List.mem_map.mpr ⟨_,List.mem_filter.mpr ⟨listed,?_⟩,rfl⟩))).resolve_right (by simp)
      exact decide_eq_true rfl
  rw [listed,crossCallRows,liftAll_run fun pending => lifts_read unified]
  simp only [List.append_assoc,List.mem_append,List.mem_flatMap,List.mem_map,List.mem_filter,Option.mem_toList,Prod.mk.injEq]
  grind

end

-- A call result handed to the formal parameter of a function in another file.
def handedOver : IdgEdge := ⟨0,0,.interCallArg,.indirect,⟨0,4,9⟩⟩

def callingSegment : IdgSegment := ⟨[.callRet ⟨⟨0,4,9⟩⟩],[⟨1,0⟩],[],[1],[]⟩

def calledSegment : IdgSegment := ⟨[.param 0],[⟨2,0⟩],[],[2],[]⟩

def twoFiles : IdgWorkspace := ⟨[callingSegment,calledSegment],none,none,[],none,none,∅,[⟨0,1,handedOver⟩],⟨[],[],[]⟩⟩

theorem twoFiles_readable : twoFiles.Readable := by
  show ∀ id < 2, (twoFiles.segmentView id).isSome = true
  decide

theorem twoFiles_viewed : SegmentPage.Viewed ⟨0,callingSegment⟩ twoFiles ∧ SegmentPage.Viewed ⟨1,calledSegment⟩ twoFiles :=
  ⟨IdgWorkspace.mem_segmentViews.mpr ⟨Nat.two_pos,rfl⟩,IdgWorkspace.mem_segmentViews.mpr ⟨Nat.one_lt_two,rfl⟩⟩

-- Between files the edge is a callback, its places alone make it a capture.
theorem callback_or_capture : (⟨0,1,handedOver⟩ : CrossFileEdge) ∈ twoFiles.visitCrossFileEdges ∧
    liftCrossCallEdgeFromUnified (buildUnified twoFiles) 0 1 handedOver =
      .complete (some ⟨1,2,⟨0,4,9⟩,noSlot,0,.indirect,.callback⟩) ∧
    ((liftCallArgEdge ⟨0,callingSegment⟩ ⟨1,calledSegment⟩ handedOver).run Memo.empty).1 =
      some ⟨1,2,⟨0,4,9⟩,noSlot,noSlot,.indirect,.capture⟩ := by
  refine ⟨by decide,by decide,rfl⟩

theorem cross_call_evidence_twoFiles :
    ((liftCrossCallEdgeFromUnified (buildUnified twoFiles) 0 1 handedOver).Agrees
        ((liftCallArgEdge ⟨0,callingSegment⟩ ⟨1,calledSegment⟩ handedOver).run Memo.empty).1 ∧
      crossFileRow (buildUnified twoFiles) ⟨0,callingSegment⟩ ⟨1,calledSegment⟩ handedOver Memo.empty =
        ((liftCallArgEdge ⟨0,callingSegment⟩ ⟨1,calledSegment⟩ handedOver).run Memo.empty).1) ↔
    SharedEvidence callingSegment calledSegment handedOver :=
  cross_call_evidence_iff twoFiles_readable twoFiles_viewed.1 twoFiles_viewed.2 handedOver Memo.empty_within

end BonsaiNinja.Idg
