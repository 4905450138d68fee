namespace BonsaiNinja.Library

structure PushdownGraph (ν : Type u) (κ : Type v) where
  owns : ν → Prop
  keeps : ν → ν → Prop
  resets : ν → ν → Prop
  calls : ν → κ → ν → Prop
  returns : ν → κ → ν → Prop

namespace PushdownGraph
variable {ν : Type u} {κ : Type v}

-- Paths with a call stack. A return pops its own key; with nothing on the stack it
-- leaves the function the path started in.
inductive Realizable (graph : PushdownGraph ν κ) (start : ν → Prop) : ν → List κ → Prop
  | start (seed : start node) (inside : graph.owns node) : Realizable graph start node []
  | keep (path : Realizable graph start node stack) (edge : graph.keeps node target) (inside : graph.owns target) :
      Realizable graph start target stack
  | reset (path : Realizable graph start node stack) (edge : graph.resets node target) (inside : graph.owns target) :
      Realizable graph start target []
  | call (path : Realizable graph start node stack) (edge : graph.calls node key target) (inside : graph.owns target) :
      Realizable graph start target (key :: stack)
  | matched (path : Realizable graph start node (key :: stack)) (edge : graph.returns node key target)
      (inside : graph.owns target) : Realizable graph start target stack
  | escape (path : Realizable graph start node []) (edge : graph.returns node key target) (inside : graph.owns target) :
      Realizable graph start target []

-- The finite tabulation: only the innermost key is kept, and a return resumes every
-- context in which that key was called.
inductive Tabulated (graph : PushdownGraph ν κ) (start : ν → Prop) : ν → Option κ → Prop
  | start (seed : start node) (inside : graph.owns node) : Tabulated graph start node none
  | keep (path : Tabulated graph start node context) (edge : graph.keeps node target) (inside : graph.owns target) :
      Tabulated graph start target context
  | reset (path : Tabulated graph start node context) (edge : graph.resets node target) (inside : graph.owns target) :
      Tabulated graph start target none
  | call (path : Tabulated graph start node context) (edge : graph.calls node key target) (inside : graph.owns target) :
      Tabulated graph start target (some key)
  | resumed (path : Tabulated graph start node (some key)) (edge : graph.returns node key target)
      (inside : graph.owns target) (caller : Tabulated graph start site context) (called : graph.calls site key entry) :
      Tabulated graph start target context
  | escape (path : Tabulated graph start node none) (edge : graph.returns node key target) (inside : graph.owns target) :
      Tabulated graph start target none

variable {graph : PushdownGraph ν κ} {start : ν → Prop}

theorem Tabulated.owned (path : Tabulated graph start node context) : graph.owns node := by
  cases path <;> assumption

def Chained (graph : PushdownGraph ν κ) (start : ν → Prop) : List κ → Prop
  | [] => True
  | key :: stack => (∃ site entry, Tabulated graph start site stack.head? ∧ graph.calls site key entry) ∧
      Chained graph start stack

theorem Realizable.chained (path : Realizable graph start node stack) :
    Tabulated graph start node stack.head? ∧ Chained graph start stack := by
  induction path with
  | start seed inside => exact ⟨.start seed inside,trivial⟩
  | keep _ edge inside ih => exact ⟨ih.1.keep edge inside,ih.2⟩
  | reset _ edge inside ih => exact ⟨ih.1.reset edge inside,trivial⟩
  | call _ edge inside ih => exact ⟨ih.1.call edge inside,⟨_,_,ih.1,edge⟩,ih.2⟩
  | matched _ edge inside ih =>
    obtain ⟨below,⟨site,entry,caller,called⟩,rest⟩ := ih
    exact ⟨below.resumed edge inside caller called,rest⟩
  | escape _ edge inside ih => exact ⟨ih.1.escape edge inside,trivial⟩

-- The tabulation misses no realizable path.
theorem Realizable.tabulated (path : Realizable graph start node stack) : Tabulated graph start node stack.head? :=
  path.chained.1

def SingleContext (graph : PushdownGraph ν κ) (start : ν → Prop) : Prop :=
  ∀ {site site' entry entry' key context context'}, Tabulated graph start site context → graph.calls site key entry →
    Tabulated graph start site' context' → graph.calls site' key entry' → context = context'

-- Without merged contexts the tabulation is exact.
theorem Tabulated.realizable (single : SingleContext graph start) (path : Tabulated graph start node context) :
    ∃ stack, stack.head? = context ∧ Realizable graph start node stack := by
  induction path with
  | start seed inside => exact ⟨[],rfl,.start seed inside⟩
  | keep _ edge inside ih =>
    obtain ⟨stack,top,path⟩ := ih
    exact ⟨stack,top,path.keep edge inside⟩
  | reset _ edge inside ih =>
    obtain ⟨stack,_,path⟩ := ih
    exact ⟨[],rfl,path.reset edge inside⟩
  | call _ edge inside ih =>
    obtain ⟨stack,_,path⟩ := ih
    exact ⟨_,rfl,path.call edge inside⟩
  | resumed _ edge inside caller called ih _ =>
    obtain ⟨stack,top,path⟩ := ih
    cases stack with
    | nil => cases top
    | cons key rest =>
      cases top
      obtain ⟨⟨site,entry,below,entered⟩,_⟩ := path.chained.2
      exact ⟨rest,single below entered caller called,path.matched edge inside⟩
  | escape _ edge inside ih =>
    obtain ⟨stack,top,path⟩ := ih
    cases stack with
    | nil => exact ⟨[],rfl,path.escape edge inside⟩
    | cons => cases top

def Edge (graph : PushdownGraph ν κ) (node target : ν) : Prop :=
  graph.keeps node target ∨ graph.resets node target ∨ ∃ key, graph.calls node key target ∨ graph.returns node key target

def restrict (graph : PushdownGraph ν κ) (kept : ν → Prop) : PushdownGraph ν κ where
  owns node := graph.owns node ∧ kept node
  keeps := graph.keeps
  resets := graph.resets
  calls node key target := graph.calls node key target ∧ graph.owns target ∧ kept target
  returns := graph.returns

theorem Realizable.owned (path : Realizable graph start node stack) : graph.owns node := by
  cases path <;> assumption

theorem Realizable.started (path : Realizable graph start node stack) : ∃ seed, start seed ∧ graph.owns seed := by
  induction path with
  | start seed inside => exact ⟨_,seed,inside⟩
  | keep _ _ _ ih | reset _ _ _ ih | call _ _ _ ih | matched _ _ _ ih | escape _ _ _ ih => exact ih

-- A path to a kept node survives a restriction that keeps everything before what it
-- keeps.
theorem Realizable.restrict {kept : ν → Prop}
    (before : ∀ {node target}, graph.owns node → graph.Edge node target → kept target → kept node)
    (path : Realizable graph start node stack) (keep : kept node) : Realizable (graph.restrict kept) start node stack := by
  induction path with
  | start seed inside => exact .start seed ⟨inside,keep⟩
  | keep path edge inside ih => exact .keep (ih (before path.owned (.inl edge) keep)) edge ⟨inside,keep⟩
  | reset path edge inside ih => exact .reset (ih (before path.owned (.inr (.inl edge)) keep)) edge ⟨inside,keep⟩
  | call path edge inside ih =>
    exact .call (ih (before path.owned (.inr (.inr ⟨_,.inl edge⟩)) keep)) ⟨edge,inside,keep⟩ ⟨inside,keep⟩
  | matched path edge inside ih =>
    exact .matched (ih (before path.owned (.inr (.inr ⟨_,.inr edge⟩)) keep)) edge ⟨inside,keep⟩
  | escape path edge inside ih =>
    exact .escape (ih (before path.owned (.inr (.inr ⟨_,.inr edge⟩)) keep)) edge ⟨inside,keep⟩

end PushdownGraph

end BonsaiNinja.Library
