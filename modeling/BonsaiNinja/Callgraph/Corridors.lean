import BonsaiNinja.Callgraph.CallbackExecution
import BonsaiNinja.Callgraph.SelectedBuilds
import BonsaiNinja.Library.Closure
import BonsaiNinja.Library.Collecting
import Mathlib.Data.List.Destutter

namespace BonsaiNinja.Callgraph.Corridor
open Library LangApi

def positions (key : CallEdge → FuncId) (edges : List CallEdge) : List (FuncId × Nat) :=
  edges.zipIdx.map fun indexed => (key indexed.1,indexed.2)

-- Adjacency rows that list, for each function, the positions of its edges in ascending order.
structure CallGraph where
  edges : List CallEdge
  outgoing : AList fun _ : FuncId => List Nat
  incoming : AList fun _ : FuncId => List Nat
  outgoingExact : ∀ func, (outgoing.lookup func).getD [] = gather (positions CallEdge.fromFunc edges) func
  incomingExact : ∀ func, (incoming.lookup func).getD [] = gather (positions CallEdge.toFunc edges) func

namespace CallGraph

def new : CallGraph := ⟨[],∅,∅,fun _ => rfl,fun _ => rfl⟩

def isDuplicate (graph : CallGraph) (edge : CallEdge) : Bool :=
  ((graph.outgoing.lookup edge.fromFunc).getD []).any fun index =>
    (graph.edges[index]?).any fun existing => existing.toFunc == edge.toFunc && existing.span.file == edge.span.file &&
      existing.span.start == edge.span.start && existing.kind == edge.kind

theorem positions_snoc (key : CallEdge → FuncId) (edges : List CallEdge) (edge : CallEdge) :
    positions key (edges ++ [edge]) = positions key edges ++ [(key edge,edges.length)] := by
  rw [positions,List.zipIdx_append,List.map_append,positions,Nat.zero_add]
  rfl

theorem gather_positions_snoc (key : CallEdge → FuncId) (edges : List CallEdge) (edge : CallEdge) (func : FuncId) :
    gather (positions key (edges ++ [edge])) func =
      gather (positions key edges) func ++ if key edge = func then [edges.length] else [] := by
  rw [positions_snoc,gather,List.filterMap_append,gather]
  congr 1
  simp only [List.filterMap_cons,List.filterMap_nil]
  split <;> simp_all

theorem pushed_exact {key : CallEdge → FuncId} {edges : List CallEdge} {map : AList fun _ : FuncId => List Nat}
    (exactly : ∀ func, (map.lookup func).getD [] = gather (positions key edges) func) (edge : CallEdge) (func : FuncId) :
    ((upsert [] (· ++ [edges.length]) (key edge) map).lookup func).getD [] = gather (positions key (edges ++ [edge])) func := by
  rw [gather_positions_snoc,lookup_upsert,← exactly func]
  split
  · next same =>
    subst same
    simp
  · next differs => rw [if_neg (Ne.symm differs),List.append_nil]

def addEdge (graph : CallGraph) (edge : CallEdge) : CallGraph :=
  if graph.isDuplicate edge then graph
  else
    { edges := graph.edges ++ [edge]
      outgoing := upsert [] (· ++ [graph.edges.length]) edge.fromFunc graph.outgoing
      incoming := upsert [] (· ++ [graph.edges.length]) edge.toFunc graph.incoming
      outgoingExact := pushed_exact graph.outgoingExact edge
      incomingExact := pushed_exact graph.incomingExact edge }

theorem pushAll_exact (key : CallEdge → FuncId) (edges : List CallEdge) (func : FuncId) :
    ((pushAll (positions key edges) ∅).lookup func).getD [] = gather (positions key edges) func := by
  rw [lookup_pushAll,AList.lookup_empty]
  rfl

def fromUniqueEdges (edges : List CallEdge) : CallGraph where
  edges := edges
  outgoing := pushAll (positions CallEdge.fromFunc edges) ∅
  incoming := pushAll (positions CallEdge.toFunc edges) ∅
  outgoingExact := pushAll_exact _ edges
  incomingExact := pushAll_exact _ edges

def callees (graph : CallGraph) (func : FuncId) : List CallEdge :=
  ((graph.outgoing.lookup func).getD []).filterMap fun index => graph.edges[index]?

def callers (graph : CallGraph) (func : FuncId) : List CallEdge :=
  ((graph.incoming.lookup func).getD []).filterMap fun index => graph.edges[index]?

theorem gathered_edges (key : CallEdge → FuncId) (edges : List CallEdge) (func : FuncId) :
    (gather (positions key edges) func).filterMap (fun index => edges[index]?) = edges.filter fun edge => key edge = func := by
  induction edges using List.reverseRecOn with
  | nil => rfl
  | append_singleton edges edge ih =>
    have inside : ∀ index ∈ gather (positions key edges) func, (edges ++ [edge])[index]? = edges[index]? := by
      intro index listed
      obtain ⟨indexed,member,same⟩ := List.mem_map.mp (mem_gather.mp listed)
      cases same
      have below := (List.mem_zipIdx' member).1
      rw [List.getElem?_append_left below]
    rw [gather_positions_snoc,List.filterMap_append,List.filterMap_congr inside,ih,List.filter_append]
    congr 1
    by_cases same : key edge = func
    · simp [same]
    · simp [same]

theorem callees_eq (graph : CallGraph) (func : FuncId) : graph.callees func = graph.edges.filter fun edge => edge.fromFunc = func := by
  rw [callees,graph.outgoingExact,gathered_edges]

theorem callers_eq (graph : CallGraph) (func : FuncId) : graph.callers func = graph.edges.filter fun edge => edge.toFunc = func := by
  rw [callers,graph.incomingExact,gathered_edges]

theorem isDuplicate_eq (graph : CallGraph) (edge : CallEdge) : graph.isDuplicate edge = graph.edges.any (·.sameToken edge) := by
  have found : graph.isDuplicate edge = (graph.callees edge.fromFunc).any fun existing => existing.toFunc == edge.toFunc &&
      existing.span.file == edge.span.file && existing.span.start == edge.span.start && existing.kind == edge.kind := by
    rw [isDuplicate,callees,List.any_filterMap]
    congr 1
  rw [found,callees_eq,List.any_filter]
  congr 1
  funext existing
  simp only [CallEdge.sameToken,Bool.and_assoc]
  rfl

-- The graph built edge by edge is the graph indexed from the edges that stayed.
theorem addAll_eq (rows : List CallEdge) : rows.foldl addEdge new = fromUniqueEdges (rows.foldl Callgraph.addEdge []) := by
  induction rows using List.reverseRecOn with
  | nil => rfl
  | append_singleton rows edge ih =>
    rw [List.foldl_append,List.foldl_append,ih,List.foldl_cons,List.foldl_nil,List.foldl_cons,List.foldl_nil,addEdge,isDuplicate_eq,
      Callgraph.addEdge]
    change (if List.any (rows.foldl Callgraph.addEdge []) _ = true then _ else _) = _
    split
    · rfl
    · simp only [fromUniqueEdges,positions_snoc,pushAll_snoc]

theorem foldl_addEdge_apart {kept rows : List CallEdge} (apart : ∀ existing ∈ kept, ∀ edge ∈ rows, existing.sameToken edge = false)
    (start : List CallEdge) : rows.foldl Callgraph.addEdge (kept ++ start) = kept ++ rows.foldl Callgraph.addEdge start := by
  induction rows generalizing start with
  | nil => rfl
  | cons edge rows ih =>
    have fresh : kept.any (·.sameToken edge) = false :=
      List.any_eq_false.mpr fun existing member => Bool.not_eq_true _ ▸ apart existing member edge List.mem_cons_self
    have added : Callgraph.addEdge (kept ++ start) edge = kept ++ Callgraph.addEdge start edge := by
      rw [Callgraph.addEdge,List.any_append,fresh,Bool.false_or,Callgraph.addEdge]
      split
      · rfl
      · exact List.append_assoc ..
    rw [List.foldl_cons,List.foldl_cons,added]
    exact ih (fun existing member other listed => apart existing member other (List.mem_cons_of_mem _ listed)) _

theorem kept_tokens (rows : List CallEdge) : (rows.foldl Callgraph.addEdge []).Sublist rows ∧
    (rows.foldl Callgraph.addEdge []).Pairwise (fun earlier later => earlier.sameToken later = false) ∧
    ∀ edge ∈ rows, ∃ existing ∈ rows.foldl Callgraph.addEdge [], existing.sameToken edge = true := by
  induction rows using List.reverseRecOn with
  | nil => exact ⟨.slnil,.nil,fun _ absurd => (List.not_mem_nil absurd).elim⟩
  | append_singleton rows edge ih =>
    obtain ⟨listed,apart,covered⟩ := ih
    rw [List.foldl_append,List.foldl_cons,List.foldl_nil,Callgraph.addEdge]
    split
    · next known =>
      refine ⟨listed.trans (List.sublist_append_left ..),apart,fun other member => ?_⟩
      rcases List.mem_append.mp member with earlier | last
      · exact covered other earlier
      · cases List.mem_singleton.mp last
        exact List.any_eq_true.mp known
    · next fresh =>
      refine ⟨listed.append (.refl _),List.pairwise_append.mpr ⟨apart,List.pairwise_singleton ..,fun existing member other last => ?_⟩,
        fun other member => ?_⟩
      · cases List.mem_singleton.mp last
        exact eq_false_of_ne_true fun same => fresh (List.any_eq_true.mpr ⟨existing,member,same⟩)
      · rcases List.mem_append.mp member with earlier | last
        · obtain ⟨existing,present,same⟩ := covered other earlier
          exact ⟨existing,List.mem_append_left _ present,same⟩
        · cases List.mem_singleton.mp last
          exact ⟨edge,List.mem_append_right _ List.mem_cons_self,edge.sameToken_refl⟩

theorem flatMap_addEdge {files : List FileId} {rows : FileId → List CallEdge} (once : files.Nodup)
    (own : ∀ file ∈ files, ∀ edge ∈ rows file, edge.span.file = file) :
    files.flatMap (fun file => (rows file).foldl Callgraph.addEdge []) = (files.flatMap rows).foldl Callgraph.addEdge [] := by
  induction files with
  | nil => rfl
  | cons file files ih =>
    rw [List.flatMap_cons,List.flatMap_cons,List.foldl_append,
      ih once.of_cons fun other member => own other (List.mem_cons_of_mem _ member)]
    refine ((foldl_addEdge_apart (fun existing kept edge listed => ?_) []).symm.trans (by rw [List.append_nil]))
    obtain ⟨other,member,among⟩ := List.mem_flatMap.mp listed
    have here := own file List.mem_cons_self existing ((kept_tokens _).1.subset kept)
    have there := own other (List.mem_cons_of_mem _ member) edge among
    have differs : existing.span.file ≠ edge.span.file := fun same =>
      (List.nodup_cons.mp once).1 (here.symm.trans (same.trans there) ▸ member)
    simp [CallEdge.sameToken,differs]

def repeatedCall (file : FileId) : List CallEdge := [executionEdge 1 2 ⟨file,0,4⟩,executionEdge 1 2 ⟨file,0,4⟩]

end CallGraph

structure CallGraphNode where
  func : FuncId
  name : Text
  qualifiedName : Option Text
  kind : DeclKind
  file : FileId
  nameSpan : Span
  deriving DecidableEq, Repr

abbrev Ascending (nodes : List CallGraphNode) : Prop := nodes.Pairwise fun a b => a.func < b.func

structure ResolvedCallGraph where
  cg : CallGraph
  nodes : List CallGraphNode
  localBindings : List CallGraphLocalBinding
  callableArguments : List CallGraphCallableArgument
  callbackExecutionFacts : CallbackExecutionFacts
  unresolvedWorkspaceSites : List UnresolvedWorkspaceCallSite
  ascending : Ascending nodes

-- `sort_unstable_by_key` and `dedup_by_key`; which of several nodes of one function stays is left open by the source.
def sortNodes (nodes : List CallGraphNode) : List CallGraphNode :=
  (nodes.mergeSort fun a b => a.func ≤ b.func).destutter fun a b => a.func ≠ b.func

theorem sortNodes_ascending (nodes : List CallGraphNode) : Ascending (sortNodes nodes) := by
  have sorted : (nodes.mergeSort fun a b => a.func ≤ b.func).Pairwise fun a b => a.func ≤ b.func := by
    have pairs := @List.pairwise_mergeSort CallGraphNode (fun a b => decide (a.func ≤ b.func))
      (fun a b c first second => decide_eq_true (Nat.le_trans (of_decide_eq_true first) (of_decide_eq_true second)))
      (fun a b => by simpa using Nat.le_total a.func b.func) nodes
    exact pairs.imp of_decide_eq_true
  have thinned := sorted.sublist (List.destutter_sublist (fun a b : CallGraphNode => a.func ≠ b.func) _)
  have apart := List.isChain_destutter (fun a b : CallGraphNode => a.func ≠ b.func) (nodes.mergeSort fun a b => a.func ≤ b.func)
  have steps : (sortNodes nodes).IsChain fun a b => a.func < b.func := by
    refine List.isChain_iff_getElem.mpr fun i below => Nat.lt_of_le_of_ne ?_ (List.isChain_iff_getElem.mp apart i below)
    exact List.pairwise_iff_getElem.mp thinned i (i + 1) (Nat.lt_of_succ_lt below) below (Nat.lt_succ_self i)
  have : IsTrans CallGraphNode fun a b => a.func < b.func := ⟨fun _ _ _ first second => Nat.lt_trans first second⟩
  exact steps.pairwise

theorem sortNodes_eq {nodes : List CallGraphNode} (ascending : Ascending nodes) : sortNodes nodes = nodes := by
  have sorted : (nodes.mergeSort fun a b => a.func ≤ b.func) = nodes :=
    List.mergeSort_of_pairwise (ascending.imp fun lower => decide_eq_true (Nat.le_of_lt lower))
  rw [sortNodes,sorted]
  exact List.destutter_of_isChain _ _ (ascending.isChain.imp fun a b lower => Nat.ne_of_lt lower)

namespace ResolvedCallGraph

def empty : ResolvedCallGraph := ⟨.new,[],[],[],⟨[],[],[]⟩,[],.nil⟩

def fromCallGraph (cg : CallGraph) : ResolvedCallGraph := { empty with cg := cg }

def fromPersistedParts (nodes : List CallGraphNode) (edges : List CallEdge) (localBindings : List CallGraphLocalBinding)
    (callableArguments : List CallGraphCallableArgument) (unresolvedWorkspaceSites : List UnresolvedWorkspaceCallSite) :
    ResolvedCallGraph where
  cg := .fromUniqueEdges edges
  nodes := sortNodes nodes
  localBindings := sortDedup localBindings
  callableArguments := sortDedup callableArguments
  callbackExecutionFacts := ⟨[],[],[]⟩
  unresolvedWorkspaceSites := sortDedup unresolvedWorkspaceSites
  ascending := sortNodes_ascending nodes

def callersOf (graph : ResolvedCallGraph) (func : FuncId) : List CallEdge := graph.cg.callers func

def calleesOf (graph : ResolvedCallGraph) (func : FuncId) : List CallEdge := graph.cg.callees func

def canReachTarget (graph : ResolvedCallGraph) (targets : List FuncId) : Option (List FuncId) :=
  Closure.drain (fun func => (graph.callersOf func).map CallEdge.fromFunc) (targets.length + graph.cg.edges.length)
    (Closure.Frontier.visitAll ⟨[],[]⟩ targets)

def included (graph : ResolvedCallGraph) (starts canReach : List FuncId) : Option (List FuncId) :=
  Closure.drain (fun func => ((graph.calleesOf func).filter fun edge => edge.toFunc ∈ canReach).map CallEdge.toFunc)
    (starts.length + graph.cg.edges.length) (Closure.Frontier.visitAll ⟨[],[]⟩ (starts.filter (· ∈ canReach)))

def restrict (graph : ResolvedCallGraph) (included : List FuncId) : ResolvedCallGraph :=
  fromPersistedParts (graph.nodes.filter fun node => node.func ∈ included)
    (graph.cg.edges.filter fun edge => edge.fromFunc ∈ included && edge.toFunc ∈ included)
    (graph.localBindings.filter fun binding => binding.caller ∈ included && binding.target ∈ included)
    (graph.callableArguments.filter fun argument => argument.caller ∈ included && argument.target ∈ included)
    (graph.unresolvedWorkspaceSites.filter fun site => site.caller ∈ included)

def between (graph : ResolvedCallGraph) (starts targets : List FuncId) : Option ResolvedCallGraph :=
  if starts.isEmpty || targets.isEmpty then some .empty
  else do
    let canReach ← graph.canReachTarget targets
    let included ← graph.included starts canReach
    return graph.restrict included

end ResolvedCallGraph

inductive Walk (edges : List CallEdge) : FuncId → List CallEdge → FuncId → Prop
  | here (func : FuncId) : Walk edges func [] func
  | step {edge : CallEdge} {path : List CallEdge} {target : FuncId} (listed : edge ∈ edges) (rest : Walk edges edge.toFunc path target) :
      Walk edges edge.fromFunc (edge :: path) target

def visits (start : FuncId) (path : List CallEdge) (func : FuncId) : Prop := func = start ∨ ∃ edge ∈ path, edge.toFunc = func

def NodeBetween (graph : ResolvedCallGraph) (starts targets : List FuncId) (func : FuncId) : Prop :=
  ∃ start ∈ starts, ∃ target ∈ targets, ∃ path, Walk graph.cg.edges start path target ∧ visits start path func

def EdgeBetween (graph : ResolvedCallGraph) (starts targets : List FuncId) (edge : CallEdge) : Prop :=
  ∃ start ∈ starts, ∃ target ∈ targets, ∃ path, Walk graph.cg.edges start path target ∧ edge ∈ path

namespace Walk
variable {edges : List CallEdge} {start middle target func : FuncId} {path first later : List CallEdge} {edge : CallEdge}

theorem append (walk : Walk edges start first middle) (rest : Walk edges middle later target) :
    Walk edges start (first ++ later) target := by
  induction walk with
  | here => exact rest
  | step listed _ ih => exact .step listed (ih rest)

section
variable (walk : Walk edges start path target)
include walk

theorem split (visited : visits start path func) :
    ∃ first later, path = first ++ later ∧ Walk edges start first func ∧ Walk edges func later target := by
  induction walk with
  | here start =>
    rcases visited with rfl | ⟨edge,listed,_⟩
    · exact ⟨[],[],rfl,.here _,.here _⟩
    · exact absurd listed List.not_mem_nil
  | @step edge path target listed rest ih =>
    rcases visited with rfl | ⟨other,among,rfl⟩
    · exact ⟨[],edge :: path,rfl,.here _,.step listed rest⟩
    · have onward : visits edge.toFunc path other.toFunc := by
        rcases List.mem_cons.mp among with rfl | later
        · exact .inl rfl
        · exact .inr ⟨other,later,rfl⟩
      obtain ⟨first,later,rfl,before,after⟩ := ih onward
      exact ⟨edge :: first,later,rfl,.step listed before,after⟩

theorem edge_ends (listed : edge ∈ path) :
    edge ∈ edges ∧ visits start path edge.fromFunc ∧ visits start path edge.toFunc := by
  induction walk with
  | here => exact absurd listed List.not_mem_nil
  | @step head path target known rest ih =>
    rcases List.mem_cons.mp listed with rfl | later
    · exact ⟨known,.inl rfl,.inr ⟨edge,List.mem_cons_self,rfl⟩⟩
    · obtain ⟨member,leaves,enters⟩ := ih later
      have lifted : ∀ {func}, visits head.toFunc path func → visits head.fromFunc (head :: path) func := by
        intro func visited
        rcases visited with rfl | ⟨other,among,same⟩
        · exact .inr ⟨head,List.mem_cons_self,rfl⟩
        · exact .inr ⟨other,List.mem_cons_of_mem _ among,same⟩
      exact ⟨member,lifted leaves,lifted enters⟩

theorem mono {more : List CallEdge} (kept : ∀ edge ∈ path, edge ∈ more) :
    Walk more start path target := by
  induction walk with
  | here => exact .here _
  | step listed _ ih =>
    exact .step (kept _ List.mem_cons_self) (ih fun edge among => kept edge (List.mem_cons_of_mem _ among))

end

end Walk

theorem reach_walk {edges : List CallEdge} {start target : FuncId} :
    Closure.Reachable (fun func => (edges.filter fun edge => edge.fromFunc = func).map CallEdge.toFunc) start target ↔
      ∃ path, Walk edges start path target := by
  constructor
  · intro reached
    induction reached with
    | refl => exact ⟨[],.here _⟩
    | tail _ step ih =>
      obtain ⟨path,walk⟩ := ih
      obtain ⟨edge,listed,rfl⟩ := List.mem_map.mp step
      obtain ⟨known,leaves⟩ := List.mem_filter.mp listed
      cases of_decide_eq_true leaves
      exact ⟨path ++ [edge],walk.append (.step known (.here _))⟩
  · intro walked
    obtain ⟨path,walk⟩ := walked
    induction walk with
    | here => exact .refl
    | @step edge path target listed _ ih =>
      refine .head (List.mem_map.mpr ⟨edge,List.mem_filter.mpr ⟨listed,decide_eq_true rfl⟩,rfl⟩) ih

theorem reach_back {edges : List CallEdge} {start target : FuncId} :
    Closure.Reachable (fun func => (edges.filter fun edge => edge.toFunc = func).map CallEdge.fromFunc) target start ↔
      ∃ path, Walk edges start path target := by
  rw [← reach_walk]
  have flip : (fun a b => b ∈ (edges.filter fun edge => edge.toFunc = a).map CallEdge.fromFunc) =
      Function.swap fun a b => b ∈ (edges.filter fun edge => edge.fromFunc = a).map CallEdge.toFunc := by
    funext a b
    simp only [Function.swap,List.mem_map,List.mem_filter,decide_eq_true_eq]
    exact propext (exists_congr fun edge => and_right_comm)
  rw [Closure.Reachable,flip]
  exact Relation.reflTransGen_swap

namespace CallGraph

abbrev onward (graph : CallGraph) (func : FuncId) : List FuncId := (graph.callees func).map CallEdge.toFunc

def reachable (graph : CallGraph) (start : FuncId) : Option (List FuncId) :=
  Closure.depthFirst graph.onward (graph.edges.length + 1) [start] []

-- Every pop takes a node off the stack, and a first visit uses up the edges out of it.
theorem depthFirst_total (graph : CallGraph) {fuel : Nat} {stack order : List FuncId}
    (enough : stack.length + graph.edges.countP (·.fromFunc ∉ order) ≤ fuel) :
    ∃ result, Closure.depthFirst graph.onward fuel stack order = some result := by
  fun_induction Closure.depthFirst _ fuel stack order with
  | case1 fuel order => exact ⟨order,rfl⟩
  | case2 => simp at enough
  | case3 fuel x stack order met ih => exact ih (by rw [List.length_cons] at enough; omega)
  | case4 fuel x stack order fresh ih =>
    have used : graph.edges.countP (·.fromFunc ∉ order) =
        (graph.edges.filter (·.fromFunc = x)).length + graph.edges.countP (·.fromFunc ∉ order ++ [x]) := by
      rw [← List.countP_eq_length_filter]
      induction graph.edges with
      | nil => rfl
      | cons edge edges ih =>
        simp only [List.countP_cons]
        grind
    refine ih ?_
    simp only [List.length_append,List.length_map,List.length_cons,callees_eq] at enough ⊢
    omega

-- The callees in the order of their edges, depth first, each function once, and exactly those a run of calls leads to.
theorem reachable_exact (graph : CallGraph) (start : FuncId) : ∃ order, graph.reachable start = some order ∧
    Closure.Traversal graph.onward [] [start] order ∧ order.Nodup ∧
    ∀ func, func ∈ order ↔ ∃ path, Walk graph.edges start path func := by
  obtain ⟨order,ran⟩ : ∃ order, graph.reachable start = some order := graph.depthFirst_total (by simp [Nat.add_comm])
  have walk := Closure.depthFirst_traversal ran
  refine ⟨order,ran,walk,walk.exactly.1,fun func => (walk.exactly.2 func).trans ?_⟩
  have steps : graph.onward = fun func => (graph.edges.filter fun edge => edge.fromFunc = func).map CallEdge.toFunc :=
    funext fun func => by rw [onward,callees_eq]
  simp only [List.mem_singleton,exists_eq_left,steps]
  exact reach_walk

end CallGraph

namespace ResolvedCallGraph
variable {graph : ResolvedCallGraph} {starts targets canReach : List FuncId}

theorem canReachTarget_exact (graph : ResolvedCallGraph) (targets : List FuncId) : ∃ reached,
    graph.canReachTarget targets = some reached ∧
      ∀ func, func ∈ reached ↔ ∃ target ∈ targets, ∃ path, Walk graph.cg.edges func path target := by
  have inside : ∀ func ∈ (targets ++ graph.cg.edges.map CallEdge.fromFunc).toFinset,
      ∀ caller ∈ (graph.callersOf func).map CallEdge.fromFunc, caller ∈ (targets ++ graph.cg.edges.map CallEdge.fromFunc).toFinset := by
    intro func _ caller calls
    rw [callersOf,CallGraph.callers_eq] at calls
    obtain ⟨edge,listed,rfl⟩ := List.mem_map.mp calls
    rw [List.mem_toFinset]
    exact List.mem_append_right _ (List.mem_map_of_mem (List.mem_of_mem_filter listed))
  obtain ⟨reached,drained,exactly⟩ := Closure.drain_closure inside
    (fun target listed => List.mem_toFinset.mpr (List.mem_append_left _ listed))
    ((List.toFinset_card_le _).trans_eq (by rw [List.length_append,List.length_map]))
  refine ⟨reached,drained,fun func => (exactly func).trans (exists_congr fun target => and_congr_right fun _ => ?_)⟩
  simp only [callersOf,CallGraph.callers_eq]
  exact reach_back

theorem included_exact (graph : ResolvedCallGraph) (starts canReach : List FuncId) : ∃ reached,
    graph.included starts canReach = some reached ∧ ∀ func, func ∈ reached ↔ ∃ start ∈ starts, start ∈ canReach ∧
      Closure.Reachable (fun func => ((graph.calleesOf func).filter fun edge => edge.toFunc ∈ canReach).map CallEdge.toFunc) start func := by
  have inside : ∀ func ∈ (starts ++ graph.cg.edges.map CallEdge.toFunc).toFinset,
      ∀ callee ∈ ((graph.calleesOf func).filter fun edge => edge.toFunc ∈ canReach).map CallEdge.toFunc,
        callee ∈ (starts ++ graph.cg.edges.map CallEdge.toFunc).toFinset := by
    intro func _ callee called
    obtain ⟨edge,listed,rfl⟩ := List.mem_map.mp called
    have among := List.mem_of_mem_filter listed
    rw [calleesOf,CallGraph.callees_eq] at among
    rw [List.mem_toFinset]
    exact List.mem_append_right _ (List.mem_map_of_mem (List.mem_of_mem_filter among))
  obtain ⟨reached,drained,exactly⟩ := @Closure.drain_closure _ _ _ _ (starts.filter (· ∈ canReach)) _ inside
    (fun start listed => List.mem_toFinset.mpr (List.mem_append_left _ (List.mem_of_mem_filter listed)))
    ((List.toFinset_card_le _).trans_eq (by rw [List.length_append,List.length_map]))
  refine ⟨reached,drained,fun func => (exactly func).trans (exists_congr fun start => ?_)⟩
  rw [List.mem_filter,decide_eq_true_eq,and_assoc]

theorem included_between {can : List FuncId}
    (back : ∀ func, func ∈ can ↔ ∃ target ∈ targets, ∃ path, Walk graph.cg.edges func path target) (func : FuncId) :
    (∃ start ∈ starts, start ∈ can ∧
      Closure.Reachable (fun func => ((graph.calleesOf func).filter fun edge => edge.toFunc ∈ can).map CallEdge.toFunc) start func) ↔
    NodeBetween graph starts targets func := by
  constructor
  · intro found
    obtain ⟨start,listed,starting,reached⟩ := found
    have walked : func ∈ can ∧ ∃ path, Walk graph.cg.edges start path func := by
      induction reached with
      | refl => exact ⟨starting,[],.here _⟩
      | tail _ step ih =>
        obtain ⟨_,path,walk⟩ := ih
        obtain ⟨edge,among,rfl⟩ := List.mem_map.mp step
        obtain ⟨calls,can⟩ := List.mem_filter.mp among
        rw [calleesOf,CallGraph.callees_eq] at calls
        obtain ⟨known,leaves⟩ := List.mem_filter.mp calls
        cases of_decide_eq_true leaves
        exact ⟨of_decide_eq_true can,path ++ [edge],walk.append (.step known (.here _))⟩
    obtain ⟨path,before⟩ := walked.2
    obtain ⟨target,aimed,later,after⟩ := (back func).mp walked.1
    refine ⟨start,listed,target,aimed,path ++ later,before.append after,?_⟩
    clear walked reached listed starting
    induction before with
    | here => exact .inl rfl
    | @step edge path func known _ ih =>
      rcases ih after with rfl | ⟨other,among,same⟩
      · exact .inr ⟨edge,List.mem_cons_self,rfl⟩
      · exact .inr ⟨other,List.mem_cons_of_mem _ among,same⟩
  · intro found
    obtain ⟨start,listed,target,aimed,path,walk,visited⟩ := found
    obtain ⟨first,later,rfl,before,after⟩ := walk.split visited
    refine ⟨start,listed,(back start).mpr ⟨target,aimed,_,walk⟩,?_⟩
    clear walk visited listed
    induction before with
    | here => exact .refl
    | @step edge path func known rest ih =>
      refine .head ?_ (ih after)
      refine List.mem_map.mpr ⟨edge,List.mem_filter.mpr ⟨?_,?_⟩,rfl⟩
      · rw [calleesOf,CallGraph.callees_eq]
        exact List.mem_filter.mpr ⟨known,decide_eq_true rfl⟩
      · exact decide_eq_true ((back _).mpr ⟨target,aimed,_,rest.append after⟩)

end ResolvedCallGraph

theorem edge_between_iff {graph : ResolvedCallGraph} {starts targets : List FuncId} {edge : CallEdge} (listed : edge ∈ graph.cg.edges) :
    NodeBetween graph starts targets edge.fromFunc ∧ NodeBetween graph starts targets edge.toFunc ↔
      EdgeBetween graph starts targets edge := by
  constructor
  · intro both
    obtain ⟨⟨start,starting,_,_,path,walk,visited⟩,⟨_,_,target,aimed,path',walk',visited'⟩⟩ := both
    obtain ⟨first,_,rfl,before,_⟩ := walk.split visited
    obtain ⟨_,later,rfl,_,after⟩ := walk'.split visited'
    exact ⟨start,starting,target,aimed,first ++ edge :: later,before.append (.step listed after),by simp⟩
  · intro found
    obtain ⟨start,starting,target,aimed,path,walk,among⟩ := found
    obtain ⟨_,leaves,enters⟩ := walk.edge_ends among
    exact ⟨⟨start,starting,target,aimed,path,walk,leaves⟩,⟨start,starting,target,aimed,path,walk,enters⟩⟩

namespace ResolvedCallGraph
variable {kept : FuncId → Bool} {graph projection : ResolvedCallGraph}

structure Keeps (graph projection : ResolvedCallGraph) (kept : FuncId → Bool) : Prop where
  nodes : projection.nodes = graph.nodes.filter fun node => kept node.func
  edges : projection.cg = .fromUniqueEdges (graph.cg.edges.filter fun edge => kept edge.fromFunc && kept edge.toFunc)
  localBindings : projection.localBindings = sortDedup (graph.localBindings.filter fun binding => kept binding.caller && kept binding.target)
  callableArguments : projection.callableArguments =
    sortDedup (graph.callableArguments.filter fun argument => kept argument.caller && kept argument.target)
  facts : projection.callbackExecutionFacts = ⟨[],[],[]⟩
  sites : projection.unresolvedWorkspaceSites = sortDedup (graph.unresolvedWorkspaceSites.filter fun site => kept site.caller)

theorem restrict_keeps (graph : ResolvedCallGraph) (included : List FuncId) :
    Keeps graph (graph.restrict included) fun func => decide (func ∈ included) :=
  ⟨sortNodes_eq (graph.ascending.sublist List.filter_sublist),rfl,rfl,rfl,rfl,rfl⟩

theorem empty_keeps (graph : ResolvedCallGraph) (none : ∀ func, kept func = false) : Keeps graph .empty kept := by
  constructor <;> simp [none,empty] <;> rfl

theorem Keeps.eq {left right : ResolvedCallGraph} {kept' : FuncId → Bool} (first : Keeps graph left kept)
    (second : Keeps graph right kept') (same : ∀ func, kept func = kept' func) : left = right := by
  cases funext same
  cases left
  cases right
  simp only [mk.injEq]
  exact ⟨first.edges.trans second.edges.symm,first.nodes.trans second.nodes.symm,first.localBindings.trans second.localBindings.symm,
    first.callableArguments.trans second.callableArguments.symm,first.facts.trans second.facts.symm,first.sites.trans second.sites.symm⟩

theorem between_keeps (graph : ResolvedCallGraph) (starts targets : List FuncId) : ∃ projection kept,
    graph.between starts targets = some projection ∧ Keeps graph projection kept ∧
      ∀ func, kept func = true ↔ NodeBetween graph starts targets func := by
  cases blank : starts.isEmpty || targets.isEmpty with
  | true =>
    refine ⟨.empty,fun _ => false,if_pos blank,empty_keeps graph fun _ => rfl,fun func => iff_of_false Bool.false_ne_true ?_⟩
    intro found
    obtain ⟨start,starting,target,aimed,_⟩ := found
    rcases (Bool.or_eq_true _ _).mp blank with none | none
    · rw [List.isEmpty_iff.mp none] at starting
      exact absurd starting List.not_mem_nil
    · rw [List.isEmpty_iff.mp none] at aimed
      exact absurd aimed List.not_mem_nil
  | false =>
    obtain ⟨can,backward,back⟩ := canReachTarget_exact graph targets
    obtain ⟨reached,forward,ahead⟩ := included_exact graph starts can
    refine ⟨graph.restrict reached,fun func => decide (func ∈ reached),?_,restrict_keeps graph reached,fun func => ?_⟩
    · rw [between,blank,if_neg Bool.false_ne_true,backward]
      simp only [Option.bind_eq_bind,Option.bind_some,forward]
      rfl
    · rw [decide_eq_true_eq,ahead,included_between back]

section
variable (keeps : Keeps graph projection kept)
include keeps

theorem Keeps.walk
    {starts targets : List FuncId} (exactly : ∀ func, kept func = true ↔ NodeBetween graph starts targets func) {start target : FuncId}
    {path : List CallEdge} (starting : start ∈ starts) (aimed : target ∈ targets) (walk : Walk graph.cg.edges start path target) :
    Walk projection.cg.edges start path target := by
  refine walk.mono fun edge among => ?_
  obtain ⟨known,leaves,enters⟩ := walk.edge_ends among
  rw [keeps.edges]
  refine List.mem_filter.mpr ⟨known,?_⟩
  rw [Bool.and_eq_true,exactly,exactly]
  exact ⟨⟨start,starting,target,aimed,path,walk,leaves⟩,⟨start,starting,target,aimed,path,walk,enters⟩⟩

theorem Keeps.same_between
    {starts targets : List FuncId} (exactly : ∀ func, kept func = true ↔ NodeBetween graph starts targets func) (func : FuncId) :
    NodeBetween projection starts targets func ↔ NodeBetween graph starts targets func := by
  constructor
  · intro found
    obtain ⟨start,starting,target,aimed,path,walk,visited⟩ := found
    refine ⟨start,starting,target,aimed,path,walk.mono fun edge among => ?_,visited⟩
    have kept := (walk.edge_ends among).1
    rw [keeps.edges] at kept
    exact List.mem_of_mem_filter kept
  · intro found
    obtain ⟨start,starting,target,aimed,path,walk,visited⟩ := found
    exact ⟨start,starting,target,aimed,path,keeps.walk exactly starting aimed walk,visited⟩

theorem Keeps.itself :
    Keeps projection projection kept := by
  have twice : ∀ {α : Type} (rows : List α) (keep : α → Bool), (rows.filter keep).filter keep = rows.filter keep := by
    intro α rows keep
    rw [List.filter_filter]
    simp
  constructor
  · rw [keeps.nodes,twice]
  · rw [keeps.edges]
    exact congrArg CallGraph.fromUniqueEdges (twice _ _).symm
  · rw [keeps.localBindings,sortDedup_filter,twice,sortDedup_idem]
  · rw [keeps.callableArguments,sortDedup_filter,twice,sortDedup_idem]
  · exact keeps.facts
  · rw [keeps.sites,sortDedup_filter,twice,sortDedup_idem]

end

end ResolvedCallGraph

-- The projection is the corridor: the functions and the edges on the walks from a start to a target, the edges as often and in the order
-- the graph has them, and projecting again changes nothing.
theorem between_exact (graph : ResolvedCallGraph) (starts targets : List FuncId) : ∃ (projection : ResolvedCallGraph) (keepsNode : FuncId → Bool)
    (keepsEdge : CallEdge → Bool),
    graph.between starts targets = some projection ∧
    projection.nodes = graph.nodes.filter (fun node => keepsNode node.func) ∧
    (∀ func, keepsNode func = true ↔ NodeBetween graph starts targets func) ∧
    projection.cg.edges = graph.cg.edges.filter keepsEdge ∧
    (∀ edge ∈ graph.cg.edges, keepsEdge edge = true ↔ EdgeBetween graph starts targets edge) ∧
    projection.between starts targets = some projection := by
  obtain ⟨projection,kept,result,keeps,exactly⟩ := graph.between_keeps starts targets
  obtain ⟨again,kept',result',keeps',exactly'⟩ := projection.between_keeps starts targets
  refine ⟨projection,kept,fun edge => kept edge.fromFunc && kept edge.toFunc,result,keeps.nodes,exactly,?_,?_,?_⟩
  · rw [keeps.edges]
    rfl
  · intro edge listed
    rw [Bool.and_eq_true,exactly,exactly,edge_between_iff listed]
  · rw [result']
    refine congrArg some (keeps'.eq keeps.itself fun func => ?_)
    rw [Bool.eq_iff_iff,exactly',exactly,keeps.same_between exactly]

end BonsaiNinja.Callgraph.Corridor
