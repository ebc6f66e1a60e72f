import Mathlib.Data.Multiset.Bind
import Mathlib.Order.Bounds.Basic
import OddBuilder.Library.Interleaving

/-!
# parallel_branch_and_bound

Without a timeout. An access to an atomic, a section of the lock or a submission
is one step; the callbacks are functions. The pool takes submitted nodes in any
order. The search starts when the counter of tasks is one.
-/

namespace JobThreads

open Interleaving Multiset

variable {State Cost : Type}

/-- The callbacks. -/
structure BnbProblem (State Cost : Type) where
  branch : State → List State
  bound : State → Cost
  objective : State → Cost
  isSolution : State → Bool

structure BnbContext (State Cost : Type) where
  bestCost : Cost
  stateMutex : Bool
  bestState : State
  found : Bool
  nodesExpanded : BitVec 64
  nodesPruned : BitVec 64
  pendingTasks : BitVec 32

structure BranchAndBoundResult (State Cost : Type) where
  found : Bool
  bestState : State
  bestCost : Cost
  nodesExpanded : BitVec 64
  nodesPruned : BitVec 64

/-- Where the task of a node is in `processNode`. -/
inductive NodePc where
  | start
  | pruning
  | expanding
  | testing
  | locking
  | locked
  | storing
  | writing
  | flagging
  | unlocking
  | branching
  | finishing
  deriving DecidableEq

/-- The field of the result that is read next. -/
inductive ResultField where
  | found
  | bestState
  | bestCost
  | nodesExpanded
  | nodesPruned
  deriving DecidableEq

/-- The caller, the tasks of nodes, and tasks that wake the caller. -/
inductive BnbThread (State Cost : Type) where
  | launching (root : State)
  | waiting
  | reading (field : ResultField) (res : BranchAndBoundResult State Cost)
  | returned (res : BranchAndBoundResult State Cost)
  | task (node : State) (pc : NodePc)
  | submitting (first : State) (rest : List State)
  | notifying

namespace BnbProblem

/-- The change of the counter when a node becomes its children. -/
def netChange (p : BnbProblem State Cost) (node : State) : BitVec 32 :=
  BitVec.ofNat 32 (p.branch node).length - 1

end BnbProblem

section Steps

variable [LinearOrder Cost] [Inhabited State] [Inhabited Cost]

/-- `default` stands for the members' initializers. -/
def BranchAndBoundResult.create : BranchAndBoundResult State Cost := ⟨false, default, default, 0, 0⟩

inductive BnbStep (p : BnbProblem State Cost) :
    LocalStep (BnbContext State Cost) (BnbThread State Cost) where
  | launch (s root) : BnbStep p s (.launching root) s {.task root .start, .waiting}
  | prune (s n) (h : s.bestCost ≤ p.bound n) : BnbStep p s (.task n .start) s {.task n .pruning}
  | pruned (s n) :
      BnbStep p s (.task n .pruning) { s with nodesPruned := s.nodesPruned + 1 }
        {.task n .finishing}
  | expand (s n) (h : p.bound n < s.bestCost) :
      BnbStep p s (.task n .start) s {.task n .expanding}
  | expanded (s n) :
      BnbStep p s (.task n .expanding) { s with nodesExpanded := s.nodesExpanded + 1 }
        {.task n .testing}
  | better (s n) (h : p.isSolution n = true) (hval : p.objective n < s.bestCost) :
      BnbStep p s (.task n .testing) s {.task n .locking}
  | worse (s n) (h : p.isSolution n = true) (hval : s.bestCost ≤ p.objective n) :
      BnbStep p s (.task n .testing) s {.task n .finishing}
  | inner (s n) (h : p.isSolution n = false) :
      BnbStep p s (.task n .testing) s {.task n .branching}
  | lock (s n) (h : s.stateMutex = false) :
      BnbStep p s (.task n .locking) { s with stateMutex := true } {.task n .locked}
  | stillBetter (s n) (hval : p.objective n < s.bestCost) :
      BnbStep p s (.task n .locked) s {.task n .storing}
  | overtaken (s n) (hval : s.bestCost ≤ p.objective n) :
      BnbStep p s (.task n .locked) s {.task n .unlocking}
  | store (s n) :
      BnbStep p s (.task n .storing) { s with bestCost := p.objective n } {.task n .writing}
  | write (s n) : BnbStep p s (.task n .writing) { s with bestState := n } {.task n .flagging}
  | flag (s n) : BnbStep p s (.task n .flagging) { s with found := true } {.task n .unlocking}
  | unlock (s n) :
      BnbStep p s (.task n .unlocking) { s with stateMutex := false } {.task n .finishing}
  | barren (s n) (h : p.branch n = []) :
      BnbStep p s (.task n .branching) s {.task n .finishing}
  | branch (s n first rest) (h : p.branch n = first :: rest) :
      BnbStep p s (.task n .branching) { s with pendingTasks := s.pendingTasks + p.netChange n }
        {.submitting first rest}
  | submit (s first child rest) :
      BnbStep p s (.submitting first (child :: rest)) s
        {.task child .start, .submitting first rest}
  | descend (s first) : BnbStep p s (.submitting first []) s {.task first .start}
  | finish (s n) (h : s.pendingTasks ≠ 1) :
      BnbStep p s (.task n .finishing) { s with pendingTasks := s.pendingTasks - 1 } 0
  | finishLast (s n) (h : s.pendingTasks = 1) :
      BnbStep p s (.task n .finishing) { s with pendingTasks := s.pendingTasks - 1 } {.notifying}
  | notify (s) : BnbStep p s .notifying s 0
  | wake (s) (h : s.pendingTasks = 0) : BnbStep p s .waiting s {.reading .found .create}
  | readFound (s res) :
      BnbStep p s (.reading .found res) s {.reading .bestState { res with found := s.found }}
  | readState (s res) :
      BnbStep p s (.reading .bestState res) s
        {.reading .bestCost { res with bestState := s.bestState }}
  | readCost (s res) :
      BnbStep p s (.reading .bestCost res) s
        {.reading .nodesExpanded { res with bestCost := s.bestCost }}
  | readExpanded (s res) :
      BnbStep p s (.reading .nodesExpanded res) s
        {.reading .nodesPruned { res with nodesExpanded := s.nodesExpanded }}
  | readPruned (s res) :
      BnbStep p s (.reading .nodesPruned res) s
        {.returned { res with nodesPruned := s.nodesPruned }}

end Steps

/-- The context at the submission of the root. -/
def bnbStart [Inhabited State] (root : State) (initialBest : Cost) :
    Config (BnbContext State Cost) (BnbThread State Cost) :=
  ⟨⟨initialBest, false, default, false, 0, 0, 1⟩, {.launching root}⟩

namespace BnbProblem

variable (p : BnbProblem State Cost)

/-- `x` is `n` or below it, and no solution but `x` is on the way. -/
def Below (n x : State) : Prop :=
  Relation.ReflTransGen (fun u v => p.isSolution u = false ∧ v ∈ p.branch u) n x

def Solution (root x : State) : Prop := p.Below root x ∧ p.isSolution x = true

/-- The bound of a node exceeds the objective of no solution at or below it. -/
def Admissible [LE Cost] (root : State) : Prop :=
  ∀ n x, p.Below root n → p.Below n x → p.isSolution x = true → p.bound n ≤ p.objective x

/-- Nodes of the tree of which none is below another. -/
inductive Frontier (root : State) : Multiset State → Prop where
  | root : Frontier root {root}
  | branch {n : State} {others : Multiset State} (h : Frontier root (n ::ₘ others))
      (hn : p.isSolution n = false) : Frontier root (Multiset.ofList (p.branch n) + others)
  | drop {n : State} {others : Multiset State} (h : Frontier root (n ::ₘ others)) :
      Frontier root others

/-- The numbers of tasks are those of an `int`. -/
def FitsInt (root : State) : Prop := ∀ nodes, p.Frontier root nodes → nodes.card < 2 ^ 31

variable {p}

theorem Frontier.belowRoot {root : State} {nodes : Multiset State} (h : p.Frontier root nodes) :
    ∀ n ∈ nodes, p.Below root n := by
  induction h with
  | root =>
    intro n hn
    rw [mem_singleton.1 hn]
    exact Relation.ReflTransGen.refl
  | branch _ hinner ih =>
    intro child hchild
    rcases mem_add.1 hchild with hchild | hchild
    · have habove := ih _ (mem_cons_self _ _)
      exact habove.tail ⟨hinner, mem_coe.1 hchild⟩
    · exact ih child (mem_cons_of_mem hchild)
  | drop _ ih =>
    intro n hn
    exact ih n (mem_cons_of_mem hn)

/-- Weights of nodes that their children share out bound the size of every frontier. -/
theorem Frontier.card_le {root : State} {nodes : Multiset State} (h : p.Frontier root nodes)
    (weight : State → Nat) (hpos : ∀ n, 1 ≤ weight n)
    (hchildren : ∀ n, ((p.branch n).map weight).sum ≤ weight n) : nodes.card ≤ weight root := by
  have hweight : (nodes.map weight).sum ≤ weight root := by
    induction h with
    | root => simp
    | @branch n _ _ _ ih =>
      have hn := hchildren n
      simp only [map_cons, sum_cons] at ih
      simp only [map_add, map_coe, sum_add, sum_coe]
      omega
    | drop _ ih =>
      simp only [map_cons, sum_cons] at ih
      omega
  have hcard : ∀ some : Multiset State, some.card ≤ (some.map weight).sum := by
    intro some
    induction some using Multiset.induction_on with
    | empty => exact Nat.zero_le _
    | cons n some ih =>
      have hn := hpos n
      simp only [card_cons, map_cons, sum_cons]
      omega
  exact le_trans (hcard nodes) hweight

/-- At a solution the search ends. -/
theorem Below.eq_of_solution {n x : State} (h : p.Below n x) (hn : p.isSolution n = true) :
    x = n := by
  rcases Relation.ReflTransGen.cases_head h with heq | ⟨_, ⟨hinner⟩⟩
  · exact heq.symm
  · simp [hn] at hinner

/-- Below an inner node is below one of its children. -/
theorem Below.exists_child {n x : State} (h : p.Below n x) (hn : p.isSolution n = false)
    (hx : p.isSolution x = true) : ∃ child ∈ p.branch n, p.Below child x := by
  rcases Relation.ReflTransGen.cases_head h with heq | ⟨child, ⟨-, hchild⟩, hbelow⟩
  · rw [heq, hx] at hn
    cases hn
  · exact ⟨child, hchild, hbelow⟩

end BnbProblem

end JobThreads
