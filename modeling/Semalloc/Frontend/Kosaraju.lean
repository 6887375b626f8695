import Semalloc.Library.DepthFirst
import Semalloc.Frontend.FinalCallGraph
import Mathlib.Data.String.Basic

/-!
# The components of the graph library

`instrIsInaLoop` numbers the marked functions, makes a node of each number and asks the graph library
for the strongly connected components. The library keeps nodes and edges in hash sets, whose order is
that of the standard library, and tells nodes apart by their names, but what it visits by the hash of
the name.

## Main definitions

* `HashSets`: the hash of a string and the orders of the two kinds of hash sets
* `Graph`, `getNodeSet`, `getAdjMatrix`: the graph of the library
* `kosaraju`: its search for strongly connected components
* `sccOfFunctions`: the components of the marked functions

## Main results

* `kosaraju_components`: the search numbers the strongly connected components
* `sccOfFunctions_correct`: so does the pass
* `cycles_contracted`: with this search, the analysis contracts exactly the cycles and returns
-/

set_option autoImplicit false

namespace Semalloc

namespace CXXGraph

open DepthFirst

/-! ## Graphs -/

/-- A node; its number is the hash of the name that the user gave. -/
structure Node where
  userId : String
  deriving DecidableEq

def Node.getId (hash : String → ℕ) (v : Node) : ℕ := hash v.userId

structure Edge where
  nodePair : Node × Node
  isDirected : Option Bool
  deriving DecidableEq

/-- What the standard library decides: the hash of a string, and in which order the nodes and the
edges of a hash set are met. -/
structure HashSets where
  hash : String → ℕ
  nodes : List Node → List Node
  nodes_perm : ∀ l, (nodes l).Perm l
  edges : List Edge → List Edge
  edges_perm : ∀ l, (edges l).Perm l

/-- The number that a string of digits is written for. -/
def stoi (s : String) : ℕ := Nat.ofDigitChars 10 s.toList 0

/-- Numbers that are their own hashes, in the order of insertion. -/
def HashSets.plain : HashSets := ⟨stoi, id, fun _ => .refl _, id, fun _ => .refl _⟩

/-- Insert a node, unless one has its name. -/
def insertNode (s : List Node) (v : Node) : List Node :=
  if s.any fun w => w.userId = v.userId then s else v :: s

/-- Insert an edge, unless one has its nodes. -/
def insertEdge (s : List Edge) (e : Edge) : List Edge :=
  if s.any fun e' => e'.nodePair = e.nodePair then s else e :: s

/-- The edges, in the order in which they are met. -/
structure Graph where
  edgeSet : List Edge
  isolatedNodesSet : List Node := []

def Graph.new (S : HashSets) (edgeSet : List Edge) : Graph where
  edgeSet := S.edges edgeSet

namespace Graph

def getNodeSet (S : HashSets) (g : Graph) : List Node :=
  S.nodes ((g.edgeSet.flatMap (fun e => [e.nodePair.1, e.nodePair.2]) ++ g.isolatedNodesSet).foldl
    insertNode [])

def isDirectedGraph (g : Graph) : Bool := g.edgeSet.all fun e => e.isDirected = some true

def addElementToAdjMatrix (adj : Node → List Node) (nodeFrom nodeTo : Node) : Node → List Node :=
  Function.update adj nodeFrom (adj nodeFrom ++ [nodeTo])

/-- The loop of `getAdjMatrix`, which ends at an edge without a direction. -/
def adjMatrix : List Edge → (Node → List Node) → Node → List Node
  | [], adj => adj
  | e :: es, adj =>
    match e.isDirected with
    | some true => adjMatrix es (addElementToAdjMatrix adj e.nodePair.1 e.nodePair.2)
    | some false =>
      adjMatrix es (addElementToAdjMatrix
        (addElementToAdjMatrix adj e.nodePair.1 e.nodePair.2) e.nodePair.2 e.nodePair.1)
    | none => adj

def getAdjMatrix (g : Graph) : Node → List Node := adjMatrix g.edgeSet fun _ => []

/-- The transpose of the graph. -/
def transpose (g : Graph) : Node → List Node :=
  g.edgeSet.foldl (fun rev e => addElementToAdjMatrix rev e.nodePair.2 e.nodePair.1) fun _ => []

end Graph

/-! ## Strongly connected components -/

structure SCCResult where
  success : Bool
  errorMessage : String
  noOfComponents : ℕ
  sccMap : ℕ → ℕ

def errUndirGraph : String := "Graph is undirected"

/-- What the first search writes: the numbers of the visited nodes, and the stack. -/
structure Finishing where
  visited : ℕ → Bool
  st : List Node

/-- What the second search writes. -/
structure Labelling where
  visited : ℕ → Bool
  sccMap : ℕ → ℕ

section Search

variable (S : HashSets)

/-- The first search, from each of the nodes. -/
def dfsHelper (adj : Node → List Node) (n : ℕ) (s : Finishing) (nodes : List Node) : Finishing :=
  exploreAll adj (fun s v => s.visited (v.getId S.hash))
    (fun v s => { s with visited := Function.update s.visited (v.getId S.hash) true })
    (fun v s => { s with st := v :: s.st }) n s nodes

/-- The second search. -/
def dfsHelper1 (rev : Node → List Node) (sccLabel n : ℕ) (s : Labelling) (nodes : List Node) :
    Labelling :=
  exploreAll rev (fun s v => s.visited (v.getId S.hash))
    (fun v s => {
      visited := Function.update s.visited (v.getId S.hash) true
      sccMap := Function.update s.sccMap (v.getId S.hash) sccLabel })
    (fun _ s => s) n s nodes

/-- The loop over the stack. -/
def popComponents (rev : Node → List Node) (n : ℕ) : List Node → Labelling → ℕ → Labelling × ℕ
  | [], s, sccLabel => (s, sccLabel)
  | rem :: st, s, sccLabel =>
    if s.visited (rem.getId S.hash) = false then
      popComponents rev n st (dfsHelper1 S rev sccLabel n s [rem]) (sccLabel + 1)
    else popComponents rev n st s sccLabel

/-- The search for strongly connected components. A search visits every node once, so the number of
nodes bounds its depth. -/
def kosaraju (g : Graph) : SCCResult :=
  if g.isDirectedGraph = false then
    { success := false, errorMessage := errUndirGraph, noOfComponents := 0, sccMap := fun _ => 0 }
  else
    let nodeSet := g.getNodeSet S
    let finishing :=
      dfsHelper S g.getAdjMatrix nodeSet.length ⟨fun _ => false, []⟩ nodeSet
    let (labelling, sccLabel) :=
      popComponents S g.transpose nodeSet.length finishing.st ⟨fun _ => false, fun _ => 0⟩ 0
    { success := true
      errorMessage := ""
      noOfComponents := sccLabel
      sccMap := labelling.sccMap }

end Search

/-! ## The matrices -/

variable {S : HashSets} {g : Graph} {v w : Node}

theorem mem_addElementToAdjMatrix {adj : Node → List Node} {a b : Node} :
    w ∈ Graph.addElementToAdjMatrix adj a b v ↔ w ∈ adj v ∨ v = a ∧ w = b := by
  unfold Graph.addElementToAdjMatrix
  by_cases hv : v = a
  · subst hv
    simp
  · simp [hv]

/-- Where every edge has a direction, the matrix has the edges. -/
theorem mem_adjMatrix {es : List Edge} {adj : Node → List Node}
    (hes : ∀ e ∈ es, e.isDirected = some true) :
    w ∈ Graph.adjMatrix es adj v ↔ w ∈ adj v ∨ ∃ e ∈ es, e.nodePair = (v, w) := by
  induction es generalizing adj with
  | nil => simp [Graph.adjMatrix]
  | cons e es ih =>
    obtain ⟨he, hes⟩ := List.forall_mem_cons.mp hes
    unfold Graph.adjMatrix
    rw [he]
    dsimp only
    rw [ih hes, mem_addElementToAdjMatrix, List.exists_mem_cons_iff, or_assoc, Prod.ext_iff]
    simp only [eq_comm]

theorem mem_getAdjMatrix (hg : g.isDirectedGraph = true) :
    w ∈ g.getAdjMatrix v ↔ ∃ e ∈ g.edgeSet, e.nodePair = (v, w) := by
  unfold Graph.getAdjMatrix
  rw [mem_adjMatrix fun e he => of_decide_eq_true (List.all_eq_true.mp hg e he)]
  simp

theorem mem_transpose : w ∈ g.transpose v ↔ ∃ e ∈ g.edgeSet, e.nodePair = (w, v) := by
  have hfold : ∀ (es : List Edge) (rev : Node → List Node),
      w ∈ es.foldl (fun rev e => Graph.addElementToAdjMatrix rev e.nodePair.2 e.nodePair.1) rev v ↔
        w ∈ rev v ∨ ∃ e ∈ es, e.nodePair = (w, v) := by
    intro es
    induction es with
    | nil => simp
    | cons e es ih =>
      intro rev
      rw [List.foldl_cons, ih, mem_addElementToAdjMatrix, List.exists_mem_cons_iff, or_assoc,
        Prod.ext_iff]
      simp only [eq_comm, and_comm]
  unfold Graph.transpose
  rw [hfold]
  simp

theorem mem_insertNode {s : List Node} : w ∈ insertNode s v ↔ w = v ∨ w ∈ s := by
  unfold insertNode
  split
  · rename_i hany
    obtain ⟨v', hv', heq⟩ := List.any_eq_true.mp hany
    have hv : v ∈ s := by
      cases v
      cases v'
      cases of_decide_eq_true heq
      exact hv'
    constructor
    · exact Or.inr
    · rintro (rfl | hw)
      · exact hv
      · exact hw
  · exact List.mem_cons

theorem nodup_insertNode {s : List Node} (hs : s.Nodup) : (insertNode s v).Nodup := by
  unfold insertNode
  split
  · exact hs
  · rename_i hany
    refine List.nodup_cons.mpr ⟨fun hv => hany ?_, hs⟩
    exact List.any_eq_true.mpr ⟨v, hv, decide_eq_true rfl⟩

theorem mem_foldl_insertNode {s vs : List Node} : w ∈ vs.foldl insertNode s ↔ w ∈ vs ∨ w ∈ s := by
  induction vs generalizing s with
  | nil => simp
  | cons v vs ih =>
    rw [List.foldl_cons, ih, mem_insertNode, List.mem_cons]
    tauto

theorem nodup_foldl_insertNode {s vs : List Node} (hs : s.Nodup) : (vs.foldl insertNode s).Nodup := by
  induction vs generalizing s with
  | nil => exact hs
  | cons v vs ih => exact ih (nodup_insertNode hs)

theorem nodup_getNodeSet : (g.getNodeSet S).Nodup :=
  (S.nodes_perm _).nodup_iff.mpr (nodup_foldl_insertNode List.nodup_nil)

theorem mem_getNodeSet : v ∈ g.getNodeSet S ↔
    (∃ e ∈ g.edgeSet, v = e.nodePair.1 ∨ v = e.nodePair.2) ∨ v ∈ g.isolatedNodesSet := by
  unfold Graph.getNodeSet
  rw [(S.nodes_perm _).mem_iff, mem_foldl_insertNode, List.mem_append, List.mem_flatMap]
  simp

/-! ## The search -/

/-- There is a walk along the edges. -/
def Path (g : Graph) : Node → Node → Prop :=
  Relation.ReflTransGen fun v w => ∃ e ∈ g.edgeSet, e.nodePair = (v, w)

theorem leads_iff (hg : g.isDirectedGraph = true) : Leads g.getAdjMatrix v w ↔ Path g v w := by
  unfold Leads Path
  simp only [mem_getAdjMatrix hg]

/-- The number tells the nodes of the graph apart. -/
def DistinctIds (S : HashSets) (g : Graph) : Prop :=
  ∀ v ∈ g.getNodeSet S, ∀ w ∈ g.getNodeSet S, v.getId S.hash = w.getId S.hash → v = w

/-- The first search records its log. -/
theorem records_finishing (hid : DistinctIds S g) :
    Records (fun (s : Finishing) v => s.visited (v.getId S.hash))
      (fun v s => { s with visited := Function.update s.visited (v.getId S.hash) true })
      (fun v s => { s with st := v :: s.st }) (g.getNodeSet S)
      fun l s => s.st = l.left ∧
        ∀ v ∈ g.getNodeSet S, s.visited (v.getId S.hash) = true ↔ v ∈ l.entered where
  visited _ _ h := h.2
  enter l s h v hv _ := by
    refine ⟨h.1, fun w hw => ?_⟩
    by_cases hwv : w = v
    · subst hwv
      simp [Log.enter]
    · have hne : w.getId S.hash ≠ v.getId S.hash := fun heq => hwv (hid w hw v hv heq)
      simp [Log.enter, hwv, hne, h.2 w hw]
  leave l s h v _ := ⟨congrArg (v :: ·) h.1, h.2⟩

/-- The second search records its log, and gives what it enters from `l₀` on one label. -/
theorem records_labelling (hid : DistinctIds S g) (sccLabel : ℕ) (l₀ : Log Node) (s₀ : Labelling) :
    Records (fun (s : Labelling) v => s.visited (v.getId S.hash))
      (fun v s => {
        visited := Function.update s.visited (v.getId S.hash) true
        sccMap := Function.update s.sccMap (v.getId S.hash) sccLabel })
      (fun _ s => s) (g.getNodeSet S)
      fun l s => l₀.entered ⊆ l.entered ∧
        (∀ v ∈ g.getNodeSet S, s.visited (v.getId S.hash) = true ↔ v ∈ l.entered) ∧
        ∀ v ∈ g.getNodeSet S, s.sccMap (v.getId S.hash) =
          if v ∈ l.entered ∧ v ∉ l₀.entered then sccLabel else s₀.sccMap (v.getId S.hash) where
  visited _ _ h := h.2.1
  enter l s h v hv hnew := by
    obtain ⟨hsub, hvisited, hlabel⟩ := h
    refine ⟨fun x hx => List.mem_cons_of_mem v (hsub hx), fun w hw => ?_, fun w hw => ?_⟩
    · by_cases hwv : w = v
      · subst hwv
        simp [Log.enter]
      · have hne : w.getId S.hash ≠ v.getId S.hash := fun heq => hwv (hid w hw v hv heq)
        simp [Log.enter, hwv, hne, hvisited w hw]
    · by_cases hwv : w = v
      · subst hwv
        have hold : w ∉ l₀.entered := fun hmem => hnew (hsub hmem)
        simp [Log.enter, hold]
      · have hne : w.getId S.hash ≠ v.getId S.hash := fun heq => hwv (hid w hw v hv heq)
        simp [Log.enter, hwv, hne, hlabel w hw]
  leave _ _ h _ _ := h

/-- The edges lead between the nodes of the graph. -/
theorem mem_getNodeSet_of_edge {e : Edge} (he : e ∈ g.edgeSet) (hpair : e.nodePair = (v, w)) :
    v ∈ g.getNodeSet S ∧ w ∈ g.getNodeSet S :=
  ⟨mem_getNodeSet.mpr (.inl ⟨e, he, .inl (congrArg Prod.fst hpair).symm⟩),
    mem_getNodeSet.mpr (.inl ⟨e, he, .inr (congrArg Prod.snd hpair).symm⟩)⟩

/-- **The first search** leaves every node on the stack. -/
theorem dfsHelper_visits (hid : DistinctIds S g) (hg : g.isDirectedGraph = true) :
    ∃ l, Visits g.getAdjMatrix ⟨[], []⟩ (g.getNodeSet S) l ∧
      (dfsHelper S g.getAdjMatrix (g.getNodeSet S).length ⟨fun _ => false, []⟩
        (g.getNodeSet S)).st = l.left ∧ ∀ v, v ∈ l.left ↔ v ∈ g.getNodeSet S := by
  have hadj : ∀ x ∈ g.getNodeSet S, g.getAdjMatrix x ⊆ g.getNodeSet S := by
    intro x _ y hy
    obtain ⟨e, he, hpair⟩ := (mem_getAdjMatrix hg).mp hy
    exact (mem_getNodeSet_of_edge he hpair).2
  obtain ⟨l, hsearch, hst, -⟩ := exploreAll_visits (records_finishing hid) hadj
    (l := ⟨[], []⟩) (s := ⟨fun _ => false, []⟩) (fun _ hx => hx) (List.length_filter_le _ _)
    ⟨rfl, fun v _ => by simp⟩
  refine ⟨l, hsearch, hst, fun v => ?_⟩
  rw [hsearch.left_iff]
  refine ⟨fun hv => ?_, fun hv => hsearch.subset_entered hv⟩
  obtain ⟨u, hu, -, hreach⟩ := hsearch.reached hv List.not_mem_nil
  induction hreach with
  | refl => exact hu
  | tail hreach hstep ih =>
    exact hadj _ (ih (hsearch.mem_entered.mpr (.inr ⟨u, hu, List.not_mem_nil, hreach⟩))) hstep.1

/-- **The second search** gives what it enters one label. -/
theorem dfsHelper1_visits (hid : DistinctIds S g) {l : Log Node} {s : Labelling} (sccLabel : ℕ)
    (hvisited : ∀ v ∈ g.getNodeSet S, s.visited (v.getId S.hash) = true ↔ v ∈ l.entered)
    (hv : v ∈ g.getNodeSet S) :
    let s' := dfsHelper1 S g.transpose sccLabel (g.getNodeSet S).length s [v]
    ∃ l', Visits g.transpose l [v] l' ∧
      (∀ v ∈ g.getNodeSet S, s'.visited (v.getId S.hash) = true ↔ v ∈ l'.entered) ∧
      ∀ v ∈ g.getNodeSet S, s'.sccMap (v.getId S.hash) =
        if v ∈ l'.entered ∧ v ∉ l.entered then sccLabel else s.sccMap (v.getId S.hash) := by
  have hrev : ∀ x ∈ g.getNodeSet S, g.transpose x ⊆ g.getNodeSet S := by
    intro x _ y hy
    obtain ⟨e, he, hpair⟩ := mem_transpose.mp hy
    exact (mem_getNodeSet_of_edge he hpair).1
  have hstart : ∀ x ∈ [v], x ∈ g.getNodeSet S := by simpa using hv
  obtain ⟨l', hvisits, -, hvisited', hlabel⟩ := exploreAll_visits
    (records_labelling hid sccLabel l s) hrev hstart
    (List.length_filter_le _ _) ⟨fun _ hx => hx, hvisited, fun x _ => by simp⟩
  exact ⟨l', hvisits, hvisited', hlabel⟩

/-- A walk between nodes of the graph stays among them. -/
theorem mem_getNodeSet_of_path (hw : w ∈ g.getNodeSet S) (hvw : Path g v w) : v ∈ g.getNodeSet S := by
  rcases hvw.cases_head with rfl | ⟨x, ⟨e, he, hpair⟩, -⟩
  · exact hw
  · exact mem_getNodeSet.mpr (.inl ⟨e, he, .inl (congrArg Prod.fst hpair).symm⟩)

/-- **The loop over the stack** numbers the components of the nodes that are left on it. -/
theorem popComponents_numbered (hid : DistinctIds S g) (hg : g.isDirectedGraph = true)
    {l₁ : Log Node} (hsearch : Visits g.getAdjMatrix ⟨[], []⟩ (g.getNodeSet S) l₁)
    (hleft : ∀ v, v ∈ l₁.left ↔ v ∈ g.getNodeSet S) {st done : List Node}
    (hsplit : l₁.left = done ++ st) {l : Log Node} {s : Labelling} {k : ℕ}
    (hvisited : ∀ v ∈ g.getNodeSet S, s.visited (v.getId S.hash) = true ↔ v ∈ l.entered)
    (hnumbered : Numbered g.getAdjMatrix done l (fun v => s.sccMap (v.getId S.hash)) k) :
    let r := popComponents S g.transpose (g.getNodeSet S).length st s k
    ∃ l', Numbered g.getAdjMatrix l₁.left l' (fun v => r.1.sccMap (v.getId S.hash)) r.2 := by
  induction st generalizing done l s k with
  | nil =>
    rw [hsplit, List.append_nil]
    exact ⟨l, hnumbered⟩
  | cons v st ih =>
    have hv : v ∈ g.getNodeSet S :=
      (hleft v).mp (hsplit ▸ List.mem_append_right _ List.mem_cons_self)
    have hnext : l₁.left = (done ++ [v]) ++ st := by rw [hsplit, List.append_assoc]; rfl
    unfold popComponents
    by_cases hentered : v ∈ l.entered
    · rw [if_neg (by simp [(hvisited v hv).mpr hentered])]
      exact ih hnext hvisited (hnumbered.skip hentered)
    · have hnot : s.visited (v.getId S.hash) = false := by
        rw [Bool.eq_false_iff]
        exact fun h => hentered ((hvisited v hv).mp h)
      rw [if_pos hnot]
      obtain ⟨l', hvisits, hvisited', hlabel⟩ := dfsHelper1_visits hid k hvisited hv
      have hprev : ∀ x y, y ∈ g.transpose x ↔ x ∈ g.getAdjMatrix y := fun x y => by
        rw [mem_transpose, mem_getAdjMatrix hg]
      have hlast : ∀ u, Leads g.getAdjMatrix u v →
          (∃ z ∈ done, Joined g.getAdjMatrix z u) ∨ Joined g.getAdjMatrix v u := fun u huv =>
        hsearch.joined hsplit
          ((hleft u).mpr (mem_getNodeSet_of_path hv ((leads_iff hg).mp huv))) huv
      -- what is entered are nodes of the graph
      have hold : ∀ x ∈ l.entered, x ∈ g.getNodeSet S := by
        intro x hx
        obtain ⟨z, hz, hzx⟩ := (hnumbered.entered x).mp hx
        exact mem_getNodeSet_of_path ((hleft z).mp (hsplit ▸ List.mem_append_left _ hz))
          ((leads_iff hg).mp hzx.2)
      have hnew : ∀ x ∈ l'.entered, x ∉ l.entered → x ∈ g.getNodeSet S := by
        intro x hx hx'
        obtain ⟨u, hu, -, hreach⟩ := hvisits.reached hx hx'
        obtain rfl := List.mem_singleton.mp hu
        exact mem_getNodeSet_of_path hv
          ((leads_iff hg).mp ((hnumbered.reaches_iff hentered hprev hlast x).mp hreach).2)
      refine ih hnext hvisited' (hnumbered.visit hentered hprev hlast hvisits ?_ ?_)
      · intro x hx
        rw [hlabel x (hold x hx), if_neg fun h => h.2 hx]
      · intro x hx hx'
        rw [hlabel x (hnew x hx hx'), if_pos ⟨hx, hx'⟩]

/-- What the search leaves: all nodes have the number of their component. -/
theorem kosaraju_numbered (hid : DistinctIds S g) (hg : g.isDirectedGraph = true) :
    ∃ done l, Numbered g.getAdjMatrix done l (fun v => (kosaraju S g).sccMap (v.getId S.hash))
        (kosaraju S g).noOfComponents ∧ ∀ v, v ∈ l.entered ↔ v ∈ g.getNodeSet S := by
  obtain ⟨l₁, hsearch, hst, hleft⟩ := dfsHelper_visits hid hg
  have hnone : Numbered g.getAdjMatrix [] ⟨[], []⟩ (fun _ => 0) 0 := .nil _
  obtain ⟨l, hnumbered⟩ := popComponents_numbered hid hg hsearch hleft l₁.left.nil_append.symm
    (s := ⟨fun _ => false, fun _ => 0⟩) (fun v _ => by simp) hnone
  refine ⟨l₁.left, l, ?_, fun v => ?_⟩
  · unfold kosaraju
    rw [if_neg (by simp [hg])]
    dsimp only
    rw [hst]
    exact hnumbered
  · rw [hnumbered.entered]
    constructor
    · rintro ⟨z, hz, hzv⟩
      exact mem_getNodeSet_of_path ((hleft z).mp hz) ((leads_iff hg).mp hzv.2)
    · exact fun hv => ⟨v, (hleft v).mpr hv, .refl v⟩

/-- Nodes have the same number exactly when walks lead from each to the other. -/
theorem kosaraju_sccMap_eq_iff (hid : DistinctIds S g) (hg : g.isDirectedGraph = true)
    (hv : v ∈ g.getNodeSet S) (hw : w ∈ g.getNodeSet S) :
    (kosaraju S g).sccMap (v.getId S.hash) = (kosaraju S g).sccMap (w.getId S.hash) ↔
      Path g v w ∧ Path g w v := by
  obtain ⟨_, l, hnumbered, hmem⟩ := kosaraju_numbered hid hg
  exact (hnumbered.joined v ((hmem v).mpr hv) w ((hmem w).mpr hw)).trans
    (and_congr (leads_iff hg) (leads_iff hg))

/-- **The search numbers the strongly connected components**: nodes have the same number exactly when
walks lead from each to the other, the numbers are those below the reported count, and no edge leads
to a lower number. -/
theorem kosaraju_components (hid : DistinctIds S g) (hg : g.isDirectedGraph = true) :
    let r := kosaraju S g
    r.success = true ∧
      (∀ v ∈ g.getNodeSet S, ∀ w ∈ g.getNodeSet S,
        r.sccMap (v.getId S.hash) = r.sccMap (w.getId S.hash) ↔ Path g v w ∧ Path g w v) ∧
      (∀ k, k < r.noOfComponents ↔ ∃ v ∈ g.getNodeSet S, r.sccMap (v.getId S.hash) = k) ∧
      ∀ e ∈ g.edgeSet,
        r.sccMap (e.nodePair.1.getId S.hash) ≤ r.sccMap (e.nodePair.2.getId S.hash) := by
  intro r
  obtain ⟨_, l, hnumbered, hmem⟩ := kosaraju_numbered hid hg
  have hsuccess : r.success = true := by
    change (kosaraju S g).success = true
    unfold kosaraju
    rw [if_neg (by simp [hg])]
  refine ⟨hsuccess, fun v hv w hw => kosaraju_sccMap_eq_iff hid hg hv hw,
    fun k => ⟨fun hk => ?_, ?_⟩, fun e he => ?_⟩
  · obtain ⟨v, hv, hvk⟩ := hnumbered.onto k hk
    exact ⟨v, (hmem v).mp hv, hvk⟩
  · rintro ⟨v, hv, rfl⟩
    exact hnumbered.lt v ((hmem v).mpr hv)
  · have hw : e.nodePair.2 ∈ g.getNodeSet S := (mem_getNodeSet_of_edge he rfl).2
    exact (hnumbered.sorted _ ((hmem _).mpr hw) _
      (.single ((mem_getAdjMatrix hg).mpr ⟨e, he, rfl⟩))).2

/-- Two nodes that lead to each other, and one they lead to. -/
def pairGraph : Graph := .new .plain
  [⟨(⟨"0"⟩, ⟨"1"⟩), some true⟩, ⟨(⟨"1"⟩, ⟨"0"⟩), some true⟩, ⟨(⟨"1"⟩, ⟨"2"⟩), some true⟩]

theorem kosaraju_components_pair :
    let r := kosaraju .plain pairGraph
    r.success = true ∧
      (∀ v ∈ pairGraph.getNodeSet .plain, ∀ w ∈ pairGraph.getNodeSet .plain,
        r.sccMap (v.getId stoi) = r.sccMap (w.getId stoi) ↔
          Path pairGraph v w ∧ Path pairGraph w v) ∧
      (∀ k, k < r.noOfComponents ↔ ∃ v ∈ pairGraph.getNodeSet .plain, r.sccMap (v.getId stoi) = k) ∧
      ∀ e ∈ pairGraph.edgeSet,
        r.sccMap (e.nodePair.1.getId stoi) ≤ r.sccMap (e.nodePair.2.getId stoi) :=
  kosaraju_components (S := .plain) (g := pairGraph) (by unfold DistinctIds; decide) (by decide)

end CXXGraph

/-! ## The components of the marked functions -/

namespace InstrumentIRPass

open CXXGraph

/-- The node of a function, named by its number. -/
def nodeOf (marks : List String) (f : String) : Node := ⟨toString (marks.idxOf f)⟩

/-- The function of a node. -/
def functionOf (marks : List String) (v : Node) : String := marks.getD (stoi v.userId) ""

/-- The graph of the calls between the marked functions. -/
def functionGraph (S : HashSets) (marks : List String) (edges : List (String × String)) : Graph :=
  .new S ((edges.map fun e => ⟨(nodeOf marks e.1, nodeOf marks e.2), some true⟩).foldl insertEdge [])

/-- What the pass reads from the result of the library. -/
def sccOfFunctions (S : HashSets) (marks : List String) (edges : List (String × String)) :
    Semalloc.SCCResult :=
  let graph := functionGraph S marks edges
  let res := kosaraju S graph
  { nodeSet := (graph.getNodeSet S).map (functionOf marks)
    sccMap := fun f => res.sccMap ((nodeOf marks f).getId S.hash) }

variable {S : HashSets} {marks : List String} {edges : List (String × String)} {f g : String}
  {v w : Node}

theorem stoi_repr (n : ℕ) : stoi (toString n) = n := by
  change Nat.ofDigitChars 10 (Nat.repr n).toList 0 = n
  rw [Nat.toList_repr, Nat.ofDigitChars_toDigits (by decide) (by decide)]

theorem functionOf_nodeOf (hf : f ∈ marks) : functionOf marks (nodeOf marks f) = f := by
  have hlt := List.idxOf_lt_length_of_mem hf
  have hnumber : stoi (nodeOf marks f).userId = marks.idxOf f := stoi_repr _
  unfold functionOf
  rw [hnumber, List.getD_eq_getElem?_getD, List.getElem?_eq_getElem hlt, Option.getD_some,
    List.getElem_idxOf hlt]

/-- The hash tells the numbers of the functions apart. -/
def DistinctNumbers (S : HashSets) (n : ℕ) : Prop :=
  ∀ i < n, ∀ j < n, S.hash (toString i) = S.hash (toString j) → i = j

theorem getId_nodeOf_inj (hS : DistinctNumbers S marks.length) (hf : f ∈ marks) (hg : g ∈ marks)
    (hid : (nodeOf marks f).getId S.hash = (nodeOf marks g).getId S.hash) : f = g :=
  (List.idxOf_inj hf).mp (hS _ (List.idxOf_lt_length_of_mem hf) _ (List.idxOf_lt_length_of_mem hg)
    hid)

/-- Every edge has a direction. -/
theorem functionGraph_isDirectedGraph : (functionGraph S marks edges).isDirectedGraph = true := by
  have hfold : ∀ (es s : List Edge), (∀ e ∈ es, e.isDirected = some true) →
      (∀ e ∈ s, e.isDirected = some true) → ∀ e ∈ es.foldl insertEdge s, e.isDirected = some true := by
    intro es
    induction es with
    | nil => exact fun _ _ hs => hs
    | cons e es ih =>
      intro s hes hs
      obtain ⟨he, hes⟩ := List.forall_mem_cons.mp hes
      refine ih _ hes ?_
      unfold insertEdge
      split
      · exact hs
      · exact List.forall_mem_cons.mpr ⟨he, hs⟩
  refine List.all_eq_true.mpr fun e he => decide_eq_true ?_
  refine hfold _ [] ?_ (fun _ h => absurd h List.not_mem_nil) e ((S.edges_perm _).mem_iff.mp he)
  intro e he
  obtain ⟨_, _, rfl⟩ := List.mem_map.mp he
  rfl

/-- The edges are the calls. -/
theorem mem_functionGraph : (∃ e ∈ (functionGraph S marks edges).edgeSet, e.nodePair = (v, w)) ↔
    ∃ f g, (f, g) ∈ edges ∧ v = nodeOf marks f ∧ w = nodeOf marks g := by
  have hinsert : ∀ (s : List Edge) (e : Edge),
      (∃ e' ∈ insertEdge s e, e'.nodePair = (v, w)) ↔
        e.nodePair = (v, w) ∨ ∃ e' ∈ s, e'.nodePair = (v, w) := by
    intro s e
    unfold insertEdge
    split
    · rename_i hany
      obtain ⟨e', he', heq⟩ := List.any_eq_true.mp hany
      constructor
      · exact Or.inr
      · rintro (h | h)
        · exact ⟨e', he', (of_decide_eq_true heq).trans h⟩
        · exact h
    · exact List.exists_mem_cons_iff ..
  have hfold : ∀ (es s : List Edge), (∃ e ∈ es.foldl insertEdge s, e.nodePair = (v, w)) ↔
      (∃ e ∈ es, e.nodePair = (v, w)) ∨ ∃ e ∈ s, e.nodePair = (v, w) := by
    intro es
    induction es with
    | nil => simp
    | cons e es ih =>
      intro s
      rw [List.foldl_cons, ih, hinsert, List.exists_mem_cons_iff, or_left_comm, or_assoc]
  unfold functionGraph Graph.new
  simp only [(S.edges_perm _).mem_iff]
  rw [hfold]
  simp only [List.mem_map, List.not_mem_nil, false_and, exists_false, or_false]
  constructor
  · rintro ⟨_, ⟨⟨f, g⟩, hfg, rfl⟩, hpair⟩
    exact ⟨f, g, hfg, (congrArg Prod.fst hpair).symm, (congrArg Prod.snd hpair).symm⟩
  · rintro ⟨f, g, hfg, rfl, rfl⟩
    exact ⟨_, ⟨(f, g), hfg, rfl⟩, rfl⟩

/-- The nodes are the ends of the calls. -/
theorem mem_nodes_functionGraph : v ∈ (functionGraph S marks edges).getNodeSet S ↔
    ∃ f, v = nodeOf marks f ∧ ∃ g, (f, g) ∈ edges ∨ (g, f) ∈ edges := by
  rw [mem_getNodeSet]
  constructor
  · rintro (⟨e, he, hv | hv⟩ | hv)
    · obtain ⟨f, g, hfg, hf, -⟩ := mem_functionGraph.mp ⟨e, he, rfl⟩
      exact ⟨f, hv.trans hf, g, .inl hfg⟩
    · obtain ⟨f, g, hfg, -, hg⟩ := mem_functionGraph.mp ⟨e, he, rfl⟩
      exact ⟨g, hv.trans hg, f, .inr hfg⟩
    · exact absurd hv List.not_mem_nil
  · rintro ⟨f, rfl, g, hfg | hgf⟩
    · obtain ⟨e, he, hpair⟩ := (mem_functionGraph (S := S)).mpr ⟨f, g, hfg, rfl, rfl⟩
      exact .inl ⟨e, he, .inl (congrArg Prod.fst hpair).symm⟩
    · obtain ⟨e, he, hpair⟩ := (mem_functionGraph (S := S)).mpr ⟨g, f, hgf, rfl, rfl⟩
      exact .inl ⟨e, he, .inr (congrArg Prod.snd hpair).symm⟩

/-- The walks of the graph are the walks along the calls. -/
theorem path_functionGraph (hedges : ∀ e ∈ edges, e.1 ∈ marks ∧ e.2 ∈ marks) (hf : f ∈ marks)
    (hg : g ∈ marks) : Path (functionGraph S marks edges) (nodeOf marks f) (nodeOf marks g) ↔
      Relation.ReflTransGen (fun a b => (a, b) ∈ edges) f g := by
  constructor
  · intro hpath
    rw [← functionOf_nodeOf hf, ← functionOf_nodeOf hg]
    refine Relation.ReflTransGen.lift (functionOf marks) (fun v w hvw => ?_) _ _ hpath
    obtain ⟨a, b, hab, rfl, rfl⟩ := mem_functionGraph.mp hvw
    rw [Function.onFun, functionOf_nodeOf (hedges _ hab).1, functionOf_nodeOf (hedges _ hab).2]
    exact hab
  · exact fun hwalk => Relation.ReflTransGen.lift (nodeOf marks)
      (fun a b hab => mem_functionGraph.mpr ⟨a, b, hab, rfl, rfl⟩) _ _ hwalk

/-- **The components of the marked functions** are the strongly connected components of the calls
between them. -/
theorem sccOfFunctions_correct (hS : DistinctNumbers S marks.length)
    (hedges : ∀ e ∈ edges, e.1 ∈ marks ∧ e.2 ∈ marks) :
    (sccOfFunctions S marks edges).Correct edges := by
  have hends : ∀ f, (∃ g, (f, g) ∈ edges ∨ (g, f) ∈ edges) → f ∈ marks := by
    rintro f ⟨g, hfg | hgf⟩
    · exact (hedges _ hfg).1
    · exact (hedges _ hgf).2
  have hid : DistinctIds S (functionGraph S marks edges) := by
    intro v hv w hw heq
    obtain ⟨f, rfl, hf⟩ := mem_nodes_functionGraph.mp hv
    obtain ⟨g, rfl, hg⟩ := mem_nodes_functionGraph.mp hw
    rw [getId_nodeOf_inj hS (hends f hf) (hends g hg) heq]
  have hmem : ∀ f, f ∈ (sccOfFunctions S marks edges).nodeSet ↔
      ∃ g, (f, g) ∈ edges ∨ (g, f) ∈ edges := by
    intro f
    refine List.mem_map.trans ⟨?_, fun hf => ?_⟩
    · rintro ⟨v, hv, rfl⟩
      obtain ⟨f, rfl, hf⟩ := mem_nodes_functionGraph.mp hv
      rw [functionOf_nodeOf (hends f hf)]
      exact hf
    · exact ⟨nodeOf marks f, mem_nodes_functionGraph.mpr ⟨f, rfl, hf⟩,
        functionOf_nodeOf (hends f hf)⟩
  refine ⟨?_, hmem, fun f hf g hg => ?_⟩
  · refine List.Nodup.map_on (fun v hv w hw heq => ?_) nodup_getNodeSet
    obtain ⟨f, rfl, hf⟩ := mem_nodes_functionGraph.mp hv
    obtain ⟨g, rfl, hg⟩ := mem_nodes_functionGraph.mp hw
    rw [functionOf_nodeOf (hends f hf), functionOf_nodeOf (hends g hg)] at heq
    rw [heq]
  · have hf := (hmem f).mp hf
    have hg := (hmem g).mp hg
    rw [SameComponent, ← path_functionGraph (S := S) hedges (hends f hf) (hends g hg),
      ← path_functionGraph (S := S) hedges (hends g hg) (hends f hf)]
    exact kosaraju_sccMap_eq_iff hid functionGraph_isDirectedGraph
      (mem_nodes_functionGraph.mpr ⟨f, rfl, hf⟩) (mem_nodes_functionGraph.mpr ⟨g, rfl, hg⟩)

/-! ## The analysis with the search -/

variable {s t : InstrumentIRPass} {r : Semalloc.SCCResult} {callPaths : ℕ → CallPath}
  {functionMap : KeyMap String (List ℕ)}

/-- Functions have one node exactly when calls lead from each to the other. -/
theorem Contracted.node_eq_iff (h : Contracted r s t) (hr : r.Correct edges) (hf : IsFunction f)
    (hg : IsFunction g) : t.node f = t.node g ↔ SameComponent edges f g := by
  constructor
  · intro heq
    by_cases hfg : f = g
    · subst hfg
      exact ⟨.refl, .refl⟩
    · -- a function outside every cycle is a node of its own
      have hcycle : f ∈ t.flippedIntraFunctionMap.keys := by
        by_contra hf'
        by_cases hg' : g ∈ t.flippedIntraFunctionMap.keys
        · refine hf' (h.named.mem_of_node_mem hf ?_)
          rw [heq, node_of_mem hg']
          exact (h.named.names _).mpr ⟨g, hg', rfl⟩
        · rw [node_of_not_mem hf', node_of_not_mem hg'] at heq
          exact hfg heq
      have hcycle' : g ∈ t.flippedIntraFunctionMap.keys := by
        refine h.named.mem_of_node_mem hg ?_
        rw [← heq, node_of_mem hcycle]
        exact (h.named.names _).mpr ⟨f, hcycle, rfl⟩
      rw [node_of_mem hcycle, node_of_mem hcycle', h.named.same f hcycle g hcycle'] at heq
      exact (hr.component f ((h.named.functions f).mp hcycle).1 g
        ((h.named.functions g).mp hcycle').1).mp heq
  · intro hfg
    by_cases hne : f = g
    · rw [hne]
    · -- functions that lead to each other have edges, so the search knows them
      have hmem : ∀ x y, x ≠ y → SameComponent edges x y → x ∈ r.nodeSet := by
        intro x y hxy hcomp
        obtain rfl | ⟨z, hz, -⟩ := hcomp.1.cases_head
        · exact absurd rfl hxy
        · exact (hr.mem x).mpr ⟨z, .inl hz⟩
      have hfn := hmem f g hne hfg
      have hgn := hmem g f (Ne.symm hne) ⟨hfg.2, hfg.1⟩
      have heq := (hr.component f hfn g hgn).mpr hfg
      have hcycle := (h.named.functions f).mpr ⟨hfn, g, hgn, Ne.symm hne, heq.symm⟩
      have hcycle' := (h.named.functions g).mpr ⟨hgn, f, hfn, hne, heq⟩
      rw [node_of_mem hcycle, node_of_mem hcycle']
      exact (h.named.same f hcycle g hcycle').mpr heq

/-- **The analysis with the search of the library**: whatever the order of its hash sets, two
functions are contracted to one node exactly when calls between marked functions lead from each to the
other, the analysis returns, and no cycle is left in the final call graph. -/
theorem cycles_contracted (h : WellFormed callPaths functionMap) (inLoop : ℕ → Bool)
    (hS : DistinctNumbers S (initial callPaths functionMap).doInitialization.functionMarkSet.length) :
    let s := (initial callPaths functionMap).doInitialization
    let kosaraju := sccOfFunctions S s.functionMarkSet
    (∀ f ∈ functionMap.keys, ∀ g ∈ functionMap.keys,
      (s.instrIsInaLoop inLoop kosaraju).node f = (s.instrIsInaLoop inLoop kosaraju).node g ↔
        SameComponent s.markedEdges f g) ∧
      ∃ s', (initial callPaths functionMap).analyze inLoop kosaraju = .ok s' ∧
        s'.finalGraph.Acyclic := by
  intro s kosaraju
  have hs := doInitialization_callGraph h
  have hedges : ∀ e ∈ s.markedEdges, e.1 ∈ s.functionMarkSet ∧ e.2 ∈ s.functionMarkSet :=
    fun e he => ⟨(hs.mem_markedEdges.mp he).1, (hs.mem_markedEdges.mp he).2.1⟩
  have hr : (kosaraju s.markedEdges).Correct s.markedEdges := sccOfFunctions_correct hS hedges
  have hcontracted := instrIsInaLoop_contracted hs (doInitialization_fresh (initial_fresh ..))
    inLoop hr
  have hfinished := constructFinalCFG_finished hcontracted
  have hmaps := hfinished.finalMaps hs
  have hacyclic := hfinished.acyclic hs hr
  obtain ⟨s', hok⟩ := computeEdgeWeight_ok hmaps hfinished.consistent hacyclic
  obtain ⟨hshape, -⟩ := computeEdgeWeight_spec hmaps hok
  refine ⟨fun f hf g hg => hcontracted.node_eq_iff hr (h.fresh f hf) (h.fresh g hg), s', hok, ?_⟩
  rw [hshape.finalGraph_eq]
  exact hacyclic

theorem cycles_contracted_twoCycles :
    let s := twoCycles.doInitialization
    let kosaraju := sccOfFunctions .plain s.functionMarkSet
    (∀ f ∈ twoCycles.functionMap.keys, ∀ g ∈ twoCycles.functionMap.keys,
      (s.instrIsInaLoop (fun _ => false) kosaraju).node f =
        (s.instrIsInaLoop (fun _ => false) kosaraju).node g ↔ SameComponent s.markedEdges f g) ∧
      ∃ s', twoCycles.analyze (fun _ => false) kosaraju = .ok s' ∧ s'.finalGraph.Acyclic :=
  cycles_contracted twoCycles_wellFormed (fun _ => false) fun i _ j _ h => by
    rw [← stoi_repr i, ← stoi_repr j]
    exact h

end InstrumentIRPass

end Semalloc
