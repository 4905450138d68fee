import BonsaiNinja.Idg.ForwardClosure
import BonsaiNinja.Library.Pushdown

namespace BonsaiNinja.Idg
open Library

namespace QueryRuntimes
variable (runtimes : QueryRuntimes)
variable {node : NodeId} {context : CallContext}

-- The call graph a contextual runtime describes, over the nodes of the workspace.
def flowGraph (keeps : NodeId → NodeId → Prop) : PushdownGraph NodeId ContextBoundaryKey where
  owns node := node < runtimes.unified.nodeCount
  keeps := keeps
  resets source target := target ∈ runtimes.contextual.heapByFrom.get source
  calls source key target := ⟨key,target⟩ ∈ runtimes.contextual.callsByFrom.get source
  returns source key target := ⟨key,target⟩ ∈ runtimes.contextual.returnsByFrom.get source

def OrdinaryEdge (source target : NodeId) : Prop := target ∈ runtimes.contextual.reach.get source

def Rebased (identity identity' : SymbolicFactIdentity) : Prop :=
  ∃ rebase ∈ runtimes.runtime.baseRebases.get identity.base, ∃ field,
    runtimes.runtime.rebasedField rebase identity.field = some field ∧
      identity' = ⟨rebase.target,field,identity.provenance⟩

def FieldStep (source target : NodeId) : Prop :=
  ∃ written ∈ runtimes.runtime.symbolicFactsForNode runtimes.unified source, ∃ read,
    Relation.ReflTransGen runtimes.Rebased written read ∧
      target ∈ (runtimes.program runtimes.unrestrictedPolicy).factConsumers read

def realizableGraph : PushdownGraph NodeId ContextBoundaryKey := runtimes.flowGraph runtimes.OrdinaryEdge

def localGraph : PushdownGraph NodeId ContextBoundaryKey :=
  runtimes.flowGraph fun source target => runtimes.OrdinaryEdge source target ∨ runtimes.FieldStep source target

-- `forward_closure` runs this program: nothing is scoped, rooted or pruned.
def unrestricted : ClosureProgram := runtimes.program runtimes.unrestrictedPolicy

variable {runtimes : QueryRuntimes} {known : Set ClosureAtom} {seeds : List NodeId}

theorem unrestricted_active (func : FuncId) : runtimes.unrestricted.IsActive known func := ⟨rfl,.inl rfl⟩

theorem unrestricted_allowed (inside : node < runtimes.unified.nodeCount) :
    runtimes.unrestricted.NodeAllowed known node := by
  obtain ⟨func,owner⟩ := UnifiedAddressSpace.wsNodeFunc_isSome.mpr inside
  exact ⟨rfl,func,owner,unrestricted_active func⟩

theorem unrestricted_enter (caller callee : FuncId) : runtimes.unrestricted.MayEnter known caller callee :=
  ⟨unrestricted_active caller,rfl,rfl⟩

theorem mem_forwardClosure : node ∈ runtimes.forwardClosure seeds ↔
    ∃ context, .reached ⟨node,context⟩ ∈ (runtimes.unrestricted.rules seeds).least := by
  have least : (runtimes.unrestricted.closureRun seeds).atoms = (runtimes.unrestricted.rules seeds).least :=
    ClosureProgram.closureRun_least rfl
  rw [← least]
  exact mem_contextualNodes (by simp [unrestrictedPolicy]) rfl

theorem closed_yields (closed : (runtimes.unrestricted.rules seeds).Closed known) (item : ClosureItem)
    (member : item.atom ∈ known) : runtimes.unrestricted.itemYields known item ⊆ known :=
  fun _ yields => closed _ (.inr (.inr (.inl ⟨item,member,yields⟩)))

theorem closed_replays (closed : (runtimes.unrestricted.rules seeds).Closed known) :
    runtimes.unrestricted.replayYields known ⊆ known :=
  fun _ yields => closed _ (.inr (.inr (.inr yields)))

theorem reached_sourced (inside : node < runtimes.unified.nodeCount) :
    .reached ⟨node,context⟩ ∈ runtimes.unrestricted.sourced ⟨node,context⟩ := .inl ⟨inside,rfl⟩

theorem transition_reaches {source target : NodeId} (from' : source < runtimes.unified.nodeCount)
    (inside : target < runtimes.unified.nodeCount) :
    .reached ⟨target,context⟩ ∈ runtimes.unrestricted.transitionYields known source target context := by
  obtain ⟨sourceFunc,ownSource⟩ := UnifiedAddressSpace.wsNodeFunc_isSome.mpr from'
  obtain ⟨targetFunc,ownTarget⟩ := UnifiedAddressSpace.wsNodeFunc_isSome.mpr inside
  exact ⟨rfl,sourceFunc,targetFunc,ownSource,ownTarget,.inl ⟨unrestricted_active targetFunc,reached_sourced inside⟩⟩

-- Each tabulation step is a forward rule, so a closed set holds every tabulated
-- state.
theorem tabulated_reached (closed : (runtimes.unrestricted.rules seeds).Closed known)
    (path : runtimes.realizableGraph.Tabulated (· ∈ seeds) node context) : .reached ⟨node,context⟩ ∈ known := by
  induction path with
  | start seed inside =>
    exact closed _ (.inr (.inl ⟨_,seed,unrestricted_allowed inside,reached_sourced inside⟩))
  | keep path edge inside reached =>
    exact closed_yields closed (.node _) reached (.inl ⟨_,edge,transition_reaches path.owned inside⟩)
  | reset path edge inside reached =>
    exact closed_yields closed (.node _) reached (.inr ⟨_,rfl,.inl ⟨_,edge,transition_reaches path.owned inside⟩⟩)
  | call path edge inside reached =>
    refine closed_yields closed (.node _) reached (.inr ⟨_,rfl,.inr (.inl ⟨_,edge,rfl,unrestricted_enter _ _,.inr (.inr ?_)⟩)⟩)
    exact ⟨.inl (unrestricted_allowed inside),reached_sourced inside⟩
  | resumed path edge inside caller called reached site =>
    rename_i node key target site' context entry
    have returned : .returnedNode key target ∈ known := closed_yields closed (.node _) reached
      (.inr ⟨_,rfl,.inr (.inr ⟨_,edge,unrestricted_allowed inside,.inl ⟨rfl,rfl⟩⟩)⟩)
    have registered : .caller key context ∈ known := closed_yields closed (.node _) site
      (.inr ⟨_,rfl,.inr (.inl ⟨_,called,rfl,unrestricted_enter _ _,.inr (.inl rfl)⟩)⟩)
    exact closed_replays closed ⟨key,context,registered,.inl ⟨target,returned,unrestricted_allowed inside,reached_sourced inside⟩⟩
  | escape path edge inside reached =>
    exact closed_yields closed (.node _) reached
      (.inr ⟨_,rfl,.inr (.inr ⟨_,edge,unrestricted_allowed inside,.inr ⟨rfl,rfl,reached_sourced inside⟩⟩)⟩)

-- The closure misses no realizable flow, and every run of its worklist ends.
theorem forwardClosure_covers_realizable (runtimes : QueryRuntimes) (seeds : List NodeId) :
    ClosureProgram.Drained (runtimes.unrestricted.closureRun seeds) ∧ ∀ node stack,
      runtimes.realizableGraph.Realizable (· ∈ seeds) node stack → node ∈ runtimes.forwardClosure seeds :=
  ⟨ClosureProgram.closureRun_drained,fun _ _ path => mem_forwardClosure.mpr ⟨_,tabulated_reached Rules.least_closed path.tabulated⟩⟩

-- Functions 0 and 1 call a helper 2 with different arguments, and the helper passes
-- both on at one call of 3, which returns its first parameter. Node 0 is the
-- argument of 0 and node 1 its result, node 2 the argument of 1 and node 3 its
-- result.
def sharedHelperUnified : UnifiedAddressSpace where
  segmentBases := [0,11]
  funcSegments := ∅
  nodeFuncs := [0,0,1,1,2,2,2,2,3,3,3]
  nodeBoundaries := []
  projectedStorage := []
  callArgs := []
  params := []
  sized := rfl

def emptyRuntimeIndex : SymbolicRuntimeIndex where
  fields := .ofList []
  spans := .ofList []
  orderingSensitiveBases := []
  baseRebases := .ofList []
  exactReads := .ofList []
  projectedFactKeys := .ofList []
  aggregateReads := .ofList []
  scalarWrites := .ofList []
  storageReads := []
  storageWrites := []
  factSources := .ofList []
  aggregateInputs := .ofList []
  aggregateOutputs := .ofList []
  resolvedCallArgs := .ofList []
  reverseTransforms := .ofList []
  reverseScalarTransforms := .ofList []
  factPages := ∅
  transforms := []

def firstCall : ContextBoundaryKey := ⟨0,2,⟨0,10,19⟩⟩
def secondCall : ContextBoundaryKey := ⟨1,2,⟨0,30,39⟩⟩
def sharedCall : ContextBoundaryKey := ⟨2,3,⟨0,50,59⟩⟩

def sharedHelperContextual : ContextualSummaryRuntime where
  reach := .ofList [(4,7),(6,7),(8,10)]
  heapByFrom := .ofList []
  callsByFrom := .ofList [(0,⟨firstCall,5⟩),(2,⟨secondCall,4⟩),(4,⟨sharedCall,8⟩),(5,⟨sharedCall,9⟩)]
  returnsByFrom := .ofList [(7,⟨firstCall,1⟩),(7,⟨secondCall,3⟩),(10,⟨sharedCall,6⟩)]
  reverseReach := .ofList []
  reverseHeap := .ofList []
  reverseCalls := .ofList []
  reverseReturns := .ofList []

def sharedHelper : QueryRuntimes := ⟨sharedHelperUnified,sharedHelperContextual,emptyRuntimeIndex,⟨[],[],[]⟩,false⟩

theorem forwardClosure_covers_shared_helper : 3 ∈ sharedHelper.forwardClosure [0,2] := by
  have inside : ∀ node < 11, sharedHelper.realizableGraph.owns node := fun _ bound => bound
  have enter : ⟨secondCall,4⟩ ∈ sharedHelper.contextual.callsByFrom.get 2 := by decide
  have nest : ⟨sharedCall,8⟩ ∈ sharedHelper.contextual.callsByFrom.get 4 := by decide
  have through : 10 ∈ sharedHelper.contextual.reach.get 8 := by decide
  have resume : ⟨sharedCall,6⟩ ∈ sharedHelper.contextual.returnsByFrom.get 10 := by decide
  have onward : 7 ∈ sharedHelper.contextual.reach.get 6 := by decide
  have leave : ⟨secondCall,3⟩ ∈ sharedHelper.contextual.returnsByFrom.get 7 := by decide
  have callee : sharedHelper.realizableGraph.Realizable (· ∈ [0,2]) 10 [sharedCall,secondCall] :=
    .keep (.call (.call (.start (by decide) (inside 2 (by decide))) enter (inside 4 (by decide))) nest (inside 8 (by decide)))
      through (inside 10 (by decide))
  exact (forwardClosure_covers_realizable sharedHelper [0,2]).2 3 [] (.matched (.keep (.matched callee resume
    (inside 6 (by decide))) onward (inside 7 (by decide))) leave (inside 3 (by decide)))

-- What each derived fact says about the paths of the tabulation, in a workspace
-- without symbolic transforms.
def Explained (runtimes : QueryRuntimes) (seeds : List NodeId) : ClosureAtom → Prop
  | .reached state => runtimes.localGraph.Tabulated (· ∈ seeds) state.node state.context
  | .fact fact => ∃ node, runtimes.localGraph.Tabulated (· ∈ seeds) node fact.context ∧
      ∃ written ∈ runtimes.runtime.symbolicFactsForNode runtimes.unified node,
        Relation.ReflTransGen runtimes.Rebased written fact.identity
  | .caller key context => ∃ site entry, runtimes.localGraph.Tabulated (· ∈ seeds) site context ∧
      runtimes.localGraph.calls site key entry
  | .returnedNode key node => ∃ site, runtimes.localGraph.Tabulated (· ∈ seeds) site (some key) ∧
      runtimes.localGraph.returns site key node
  | .returnedFact _ _ => False
  | _ => True

theorem sourced_explained
    (path : node < runtimes.unified.nodeCount → runtimes.localGraph.Tabulated (· ∈ seeds) node context) :
    runtimes.unrestricted.sourced ⟨node,context⟩ ⊆ {atom | runtimes.Explained seeds atom} := by
  rintro atom (⟨inside,rfl⟩ | ⟨_,rfl | ⟨identity,fact,_,rfl⟩⟩)
  · exact path inside
  · trivial
  · have inside : node < runtimes.unified.nodeCount :=
      @ClosureProgram.introduced_node _ runtimes.unrestricted _ fact
    exact ⟨node,path inside,identity,fact,.refl⟩

theorem unrestricted_activation (func : FuncId) (atom : ClosureAtom) : atom ∉ runtimes.unrestricted.activation func :=
  fun member => member.1 rfl

theorem transition_explained {source target : NodeId}
    (path : target < runtimes.unified.nodeCount → runtimes.localGraph.Tabulated (· ∈ seeds) target context) :
    runtimes.unrestricted.transitionYields known source target context ⊆ {atom | runtimes.Explained seeds atom} := by
  rintro atom ⟨_,_,_,_,_,⟨_,member⟩ | ⟨_,activated | member⟩⟩
  · exact sourced_explained path member
  · exact absurd activated (unrestricted_activation _ atom)
  · exact sourced_explained path member

theorem node_explained {state : ClosureNodeState} (path : runtimes.localGraph.Tabulated (· ∈ seeds) state.node state.context) :
    runtimes.unrestricted.nodeYields known state ⊆ {atom | runtimes.Explained seeds atom} := by
  rintro atom (⟨target,edge,member⟩ | ⟨contextual,policy,member⟩)
  · exact transition_explained (fun inside => path.keep (.inl edge) inside) member
  · cases (policy : some runtimes.contextual = some contextual)
    rcases member with ⟨target,edge,member⟩ | ⟨call,edge,_,_,member⟩ | ⟨returned,edge,_,member⟩
    · exact transition_explained (fun inside => path.reset edge inside) member
    · rcases member with activated | rfl | ⟨_,member⟩
      · exact absurd activated (unrestricted_activation _ atom)
      · exact ⟨state.node,call.target,path,edge⟩
      · exact sourced_explained (fun inside => path.call edge inside) member
    · obtain ⟨node,context⟩ := state
      rcases member with ⟨matched,rfl⟩ | ⟨empty,_,member⟩
      · cases matched
        exact ⟨node,path,edge⟩
      · cases empty
        exact sourced_explained (fun inside => path.escape edge inside) member

theorem fact_explained (untransformed : runtimes.runtime.transforms = []) {fact : SymbolicNodeFact}
    (explained : runtimes.Explained seeds (.fact fact)) :
    runtimes.unrestricted.factYields known fact ⊆ {atom | runtimes.Explained seeds atom} := by
  obtain ⟨node,path,written,introduced,rebased⟩ := explained
  rintro atom (⟨rebase,row,field,found,_,rfl⟩ | ⟨target,consumed,allowed,rfl⟩ | ⟨transform,leaving,_⟩)
  · exact ⟨node,path,written,introduced,rebased.tail ⟨rebase,row,field,found,rfl⟩⟩
  · exact path.keep (.inr ⟨written,introduced,fact.identity,rebased,consumed⟩) allowed.inside
  · have none' : transform ∈ runtimes.runtime.transforms := List.mem_of_mem_filter leaving
    rw [untransformed] at none'
    cases none'

theorem explained_closed (untransformed : runtimes.runtime.transforms = []) :
    (runtimes.unrestricted.rules seeds).Closed {atom | runtimes.Explained seeds atom} := by
  intro atom follows
  rcases follows with start | ⟨seed,member,_,sourced⟩ | ⟨item,explained,yields⟩ | ⟨key,context,caller,replayed⟩
  · cases atom <;> trivial
  · exact sourced_explained (fun inside => .start member inside) sourced
  · cases item with
    | node state => exact node_explained explained yields
    | fact fact => exact fact_explained untransformed explained yields
  · rcases replayed with ⟨node,⟨site,below,edge⟩,_,member⟩ | ⟨identity,returned,_⟩
    · obtain ⟨above,entry,path,called⟩ := caller
      exact sourced_explained (fun inside => below.resumed edge inside path called) member
    · exact absurd returned id

-- Every reported node lies on a path whose returns resume a context their boundary
-- was called in; with one calling context a boundary the path is realizable.
theorem forwardClosure_resumes_callers (runtimes : QueryRuntimes) (seeds : List NodeId)
    (untransformed : runtimes.runtime.transforms = []) : ∀ node ∈ runtimes.forwardClosure seeds,
      (∃ context, runtimes.localGraph.Tabulated (· ∈ seeds) node context) ∧
        (runtimes.localGraph.SingleContext (· ∈ seeds) → ∃ stack, runtimes.localGraph.Realizable (· ∈ seeds) node stack) := by
  intro node found
  obtain ⟨context,derived⟩ := mem_forwardClosure.mp found
  have path : runtimes.localGraph.Tabulated (· ∈ seeds) node context :=
    Rules.least_subset (explained_closed untransformed) derived
  refine ⟨⟨context,path⟩,fun single => ?_⟩
  obtain ⟨stack,_,realizable⟩ := path.realizable single
  exact ⟨stack,realizable⟩

-- The realizable states of the helper's two callers: 0 supplies only the parameter
-- that is not returned.
def sharedHelperStates : List (NodeId × List ContextBoundaryKey) :=
  [(0,[]),(2,[]),(5,[firstCall]),(9,[sharedCall,firstCall]),(4,[secondCall]),(7,[secondCall]),
    (8,[sharedCall,secondCall]),(10,[sharedCall,secondCall]),(6,[secondCall]),(3,[])]

theorem sharedHelper_realizable {stack : List ContextBoundaryKey}
    (path : sharedHelper.realizableGraph.Realizable (· ∈ [0,2]) node stack) : (node,stack) ∈ sharedHelperStates := by
  have keeps : ∀ state ∈ sharedHelperStates, ∀ target ∈ sharedHelper.contextual.reach.get state.1,
      (target,state.2) ∈ sharedHelperStates := by decide
  have resets : ∀ state ∈ sharedHelperStates, ∀ target ∈ sharedHelper.contextual.heapByFrom.get state.1,
      (target,[]) ∈ sharedHelperStates := by decide
  have calls : ∀ state ∈ sharedHelperStates, ∀ call ∈ sharedHelper.contextual.callsByFrom.get state.1,
      (call.target,call.key :: state.2) ∈ sharedHelperStates := by decide
  have returns : ∀ state ∈ sharedHelperStates, ∀ returned ∈ sharedHelper.contextual.returnsByFrom.get state.1,
      (state.2.head? = some returned.key ∨ state.2 = [] → (returned.target,state.2.tail) ∈ sharedHelperStates) := by
    decide
  induction path with
  | start seed => rcases List.mem_pair.mp seed with rfl | rfl <;> decide
  | keep _ edge _ ih => exact keeps _ ih _ edge
  | reset _ edge _ ih => exact resets _ ih _ edge
  | call _ edge _ ih => exact calls _ ih _ edge
  | matched _ edge _ ih => exact returns _ ih _ edge (.inl rfl)
  | escape _ edge _ ih => exact returns _ ih _ edge (.inr rfl)

-- The result of 0 is reported although no realizable path reaches it: the value 1
-- passes through the shared call is also returned to the context 0 entered it from.
theorem shared_call_returns_to_both : (∀ source target, sharedHelper.OrdinaryEdge source target →
      sharedHelper.unified.wsNodeFunc source = sharedHelper.unified.wsNodeFunc target) ∧
    1 ∈ sharedHelper.forwardClosure [0,2] ∧ ¬∃ stack, sharedHelper.realizableGraph.Realizable (· ∈ [0,2]) 1 stack := by
  refine ⟨fun source target edge => ?_,by decide,fun ⟨stack,path⟩ => ?_⟩
  · have same : ∀ row ∈ sharedHelper.contextual.reach.rows,
        sharedHelper.unified.wsNodeFunc row.1 = sharedHelper.unified.wsNodeFunc row.2 := by decide
    exact same (source,target) (GroupedRows.mem_get.mp edge)
  · have listed := sharedHelper_realizable path
    simp [sharedHelperStates] at listed

def secondCallerStates : List (NodeId × CallContext) :=
  [(2,none),(4,some secondCall),(7,some secondCall),(8,some sharedCall),(10,some sharedCall),(6,some secondCall),(3,none)]

theorem sharedHelper_tabulated
    (path : sharedHelper.localGraph.Tabulated (· ∈ [2]) node context) : (node,context) ∈ secondCallerStates := by
  have keeps : ∀ state ∈ secondCallerStates, ∀ target ∈ sharedHelper.contextual.reach.get state.1,
      (target,state.2) ∈ secondCallerStates := by decide
  have resets : ∀ state ∈ secondCallerStates, ∀ target ∈ sharedHelper.contextual.heapByFrom.get state.1,
      (target,none) ∈ secondCallerStates := by decide
  have calls : ∀ state ∈ secondCallerStates, ∀ call ∈ sharedHelper.contextual.callsByFrom.get state.1,
      (call.target,some call.key) ∈ secondCallerStates := by decide
  have resumes : ∀ state ∈ secondCallerStates, ∀ returned ∈ sharedHelper.contextual.returnsByFrom.get state.1,
      ∀ site ∈ secondCallerStates, ∀ call ∈ sharedHelper.contextual.callsByFrom.get site.1,
        state.2 = some returned.key → call.key = returned.key → (returned.target,site.2) ∈ secondCallerStates := by
    decide
  have escapes : ∀ state ∈ secondCallerStates, ∀ returned ∈ sharedHelper.contextual.returnsByFrom.get state.1,
      state.2 = none → (returned.target,none) ∈ secondCallerStates := by decide
  induction path with
  | start seed => cases List.mem_singleton.mp seed; decide
  | keep _ edge _ ih =>
    rcases edge with ordinary | ⟨written,introduced,_⟩
    · exact keeps _ ih _ ordinary
    · simp [SymbolicRuntimeIndex.symbolicFactsForNode,UnifiedAddressSpace.wsAddress,sharedHelper,sharedHelperUnified]
        at introduced
  | reset _ edge _ ih => exact resets _ ih _ edge
  | call _ edge _ ih => exact calls _ ih _ edge
  | resumed _ edge _ _ called ih site => exact resumes _ ih _ edge _ site _ called rfl rfl
  | escape _ edge _ ih => exact escapes _ ih _ edge rfl

theorem secondCaller_single : sharedHelper.localGraph.SingleContext (· ∈ [2]) := by
  have single : ∀ state ∈ secondCallerStates, ∀ call ∈ sharedHelper.contextual.callsByFrom.get state.1,
      ∀ state' ∈ secondCallerStates, ∀ call' ∈ sharedHelper.contextual.callsByFrom.get state'.1,
        call.key = call'.key → state.2 = state'.2 := by decide
  intro site site' entry entry' key context context' path called path' called'
  exact single _ (sharedHelper_tabulated path) _ called _ (sharedHelper_tabulated path') _ called' rfl

theorem forwardClosure_resumes_second_caller :
    ∃ stack, sharedHelper.localGraph.Realizable (· ∈ [2]) 3 stack :=
  (forwardClosure_resumes_callers sharedHelper [2] rfl 3 (by decide)).2 secondCaller_single

end QueryRuntimes

end BonsaiNinja.Idg
