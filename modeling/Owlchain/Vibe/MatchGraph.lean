import Mathlib.Data.List.Nodup
import Mathlib.Logic.Function.Basic
import Owlchain.Runtime

/-! The pattern graph of the URL router. A pattern is a text in which a placeholder `:name`
stands for the characters up to the next slash and a final `*` for everything that follows.
`MatchGraphBuilder` turns every pattern into a chain of nodes, one for each character, where
a placeholder becomes edges from a node to itself. All chains start behind the same node. -/

namespace Owlchain.Vibe

open Owlchain.Library Loop

def slash : UInt8 := '/'.toUInt8

def star : UInt8 := '*'.toUInt8

def colon : UInt8 := ':'.toUInt8

def caret : UInt8 := '^'.toUInt8

/-- `TerminalChar`. -/
def terminalChar : UInt8 := 0

/-- `ubyte.min .. ubyte.max+1`. -/
def allBytes : List UInt8 := (List.range 256).map UInt8.ofNat

theorem mem_allBytes (c : UInt8) : c ∈ allBytes := by
  refine List.mem_map.mpr ⟨c.toNat, ?_, UInt8.ofNat_toNat⟩
  exact List.mem_range.mpr (UInt8.toNat_lt c)

theorem nodup_allBytes : allBytes.Nodup := by
  refine List.Nodup.map_on ?_ List.nodup_range
  intro x hx y hy h
  rw [List.mem_range] at hx hy
  have := congrArg UInt8.toNat h
  rwa [UInt8.toNat_ofNat_of_lt' hx, UInt8.toNat_ofNat_of_lt' hy] at this

/-! ### The builder -/

/-- A pattern that passes through a node, and the placeholder it is in; none is the empty text. -/
structure TerminalTag where
  index : ℕ
  var : Bytes
  deriving DecidableEq

structure Node where
  terminals : List TerminalTag
  edges : UInt8 → List ℕ

/-- `Node.init`. -/
def Node.blank : Node := ⟨[], fun _ => []⟩

/-- The array `m_nodes`. -/
structure Graph where
  length : ℕ
  node : ℕ → Node

def Graph.empty : Graph := ⟨0, fun _ => .blank⟩

/-- Add a node and return its index. -/
def addNode (g : Graph) : Graph × ℕ :=
  (⟨g.length + 1, Function.update g.node g.length .blank⟩, g.length)

def setNode (g : Graph) (n : ℕ) (x : Node) : Graph := { g with node := Function.update g.node n x }

/-- `m_nodes[n].edges[ch] = targets`. -/
def setEdges (g : Graph) (n : ℕ) (ch : UInt8) (targets : List ℕ) : Graph :=
  setNode g n { g.node n with edges := Function.update (g.node n).edges ch targets }

/-- The loop of `addTerminal` over the tags of a node. -/
def tagTerminal (terminal : ℕ) (var : Bytes) : List TerminalTag → Result (List TerminalTag)
  | [] => .ok [⟨terminal, var⟩]
  | t :: ts =>
    if t.index = terminal then
      -- no two placeholders may claim one node
      if t.var = [] ∨ t.var = var then .ok (⟨terminal, var⟩ :: ts) else .error .assert
    else (tagTerminal terminal var ts).map (t :: ·)

def addTerminal (g : Graph) (node terminal : ℕ) (var : Bytes) : Result Graph := do
  let terminals ← tagTerminal terminal var (g.node node).terminals
  return setNode g node { g.node node with terminals := terminals }

def addEdge (g : Graph) (src dst : ℕ) (ch : UInt8) (terminal : ℕ) (var : Bytes) : Result Graph :=
  addTerminal (setEdges g src ch ((g.node src).edges ch ++ [dst])) dst terminal var

/-- `addEdge` to a new node, which is returned. -/
def addEdgeNew (g : Graph) (src : ℕ) (ch : UInt8) (terminal : ℕ) (var : Bytes) :
    Result (Graph × ℕ) := do
  if (g.node src).edges ch ≠ [] then .error .assert
  let (g, nidx) := addNode g
  let g ← addEdge g src nidx ch terminal var
  return (g, nidx)

/-- An edge from a node to itself for each of the characters. -/
def addLoops (g : Graph) (nidx terminal : ℕ) (var : Bytes) (chars : List UInt8) : Result Graph :=
  chars.foldlM (fun g v => addEdge g nidx nidx v terminal var) g

/-- The name at the front of a text and what follows it. -/
def skipPathNode (str : Bytes) : Bytes × Bytes :=
  (str.takeWhile (· ≠ slash), str.dropWhile (· ≠ slash))

/-- The loop of `insert`. A pass takes at least one character off the pattern, which bounds
their number. -/
def insertLoop (terminal : ℕ) : ℕ → Graph → ℕ → List Bytes → Bytes → Result (Graph × ℕ × List Bytes)
  | _, g, nidx, vars, [] => .ok (g, nidx, vars)
  | 0, _, _, _, _ :: _ => .error .unfinished
  | passes + 1, g, nidx, vars, ch :: pattern =>
    if ch = star then
      if pattern ≠ [] then .error .assert
      else do
        let g ← addLoops g nidx terminal [] (allBytes.filter (· ≠ terminalChar))
        insertLoop terminal passes g nidx vars []
    else if ch = colon then
      let name := (skipPathNode pattern).1
      let pattern := (skipPathNode pattern).2
      if name = [] ∨ name ∈ vars ∨ pattern.head? = some star ∨ pattern.head? = some colon then
        .error .assert
      else do
        let g ← addLoops g nidx terminal name
          (allBytes.filter fun v => v ≠ terminalChar ∧ v ≠ slash)
        insertLoop terminal passes g nidx (vars ++ [name]) pattern
    else do
      let (g, nidx) ← addEdgeNew g nidx ch terminal []
      insertLoop terminal passes g nidx vars pattern

/-- Insert a pattern and return the names of its placeholders. -/
def Graph.insert (g : Graph) (pattern : Bytes) (terminal : ℕ) : Result (Graph × List Bytes) := do
  let g := if g.length = 0 then (addNode g).1 else g
  let (g, nidx) := addNode g
  let g ← addEdge g 0 nidx caret terminal []
  let (g, nidx, vars) ← insertLoop terminal pattern.length g nidx [] pattern
  let (g, _) ← addEdgeNew g nidx terminalChar terminal []
  return (g, vars)

/-! ### Patterns -/

/-- What a pattern has between two of its characters. -/
inductive Gap where
  | none
  | var (name : Bytes)
  | rest
  deriving DecidableEq

/-- The characters that a gap takes up. -/
def Gap.takes : Gap → UInt8 → Bool
  | .none, _ => false
  | .var _, c => c ≠ terminalChar ∧ c ≠ slash
  | .rest, c => c ≠ terminalChar

/-- The placeholder of a gap, if any. -/
def Gap.name : Gap → Bytes
  | .none => []
  | .var name => name
  | .rest => []

def Gap.names : Gap → List Bytes
  | .none => []
  | .var name => [name]
  | .rest => []

def Gap.render : Gap → Bytes
  | .none => []
  | .var name => colon :: name
  | .rest => [star]

/-- A pattern: a gap, then characters, each with the gap behind it. -/
structure Pattern where
  first : Gap
  cells : List (UInt8 × Gap)

def renderCells (cells : List (UInt8 × Gap)) : Bytes :=
  cells.flatMap fun cell => cell.1 :: cell.2.render

def Pattern.render (p : Pattern) : Bytes := p.first.render ++ renderCells p.cells

/-- The names of the placeholders, in order. -/
def namesFrom (k : Gap) (cells : List (UInt8 × Gap)) : List Bytes :=
  k.names ++ cells.flatMap fun cell => cell.2.names

def Pattern.names (p : Pattern) : List Bytes := namesFrom p.first p.cells

/-- A gap that may stand before the given characters. -/
def Gap.Fits : Gap → List (UInt8 × Gap) → Prop
  | .none, _ => True
  | .var name, cells => name ≠ [] ∧ slash ∉ name ∧ ∀ cell ∈ cells.head?, cell.1 = slash
  | .rest, cells => cells = []

def CellsFit : Gap → List (UInt8 × Gap) → Prop
  | k, [] => k.Fits []
  | k, (c, k') :: cells =>
    k.Fits ((c, k') :: cells) ∧ c ≠ star ∧ c ≠ colon ∧ c ≠ terminalChar ∧ CellsFit k' cells

instance (k : Gap) (cells : List (UInt8 × Gap)) : Decidable (k.Fits cells) := by
  cases k <;> (unfold Gap.Fits; infer_instance)

instance decidableCellsFit : (k : Gap) → (cells : List (UInt8 × Gap)) → Decidable (CellsFit k cells)
  | k, [] => inferInstanceAs (Decidable (k.Fits []))
  | k, (c, k') :: cells =>
    have := decidableCellsFit k' cells
    inferInstanceAs (Decidable (k.Fits ((c, k') :: cells) ∧ c ≠ star ∧ c ≠ colon ∧
      c ≠ terminalChar ∧ CellsFit k' cells))

/-- The patterns that the router accepts. -/
structure Pattern.WellFormed (p : Pattern) : Prop where
  fits : CellsFit p.first p.cells
  names : p.names.Nodup

instance (p : Pattern) : Decidable p.WellFormed :=
  decidable_of_iff (CellsFit p.first p.cells ∧ p.names.Nodup)
    ⟨fun h => ⟨h.1, h.2⟩, fun h => ⟨h.fits, h.names⟩⟩

/-! ### The chain of a pattern -/

/-- A node of a chain before its edge to the next one is added. -/
def openCell (t : ℕ) (k : Gap) (n : ℕ) : Node :=
  ⟨[⟨t, k.name⟩], fun c => if k.takes c then [n] else []⟩

/-- A node of a chain with an edge for `c` to the next one. -/
def chainCell (t : ℕ) (k : Gap) (n : ℕ) (c : UInt8) (m : ℕ) : Node :=
  ⟨[⟨t, k.name⟩], fun x => if k.takes x then [n] else if x = c then [m] else []⟩

/-- The nodes from `n` on are the chain of a pattern, without its end. -/
def OpenChain (g : Graph) (t : ℕ) : Gap → List (UInt8 × Gap) → ℕ → Prop
  | k, [], n => g.node n = openCell t k n
  | k, (c, k') :: cells, n => g.node n = chainCell t k n c (n + 1) ∧ OpenChain g t k' cells (n + 1)

/-- The nodes from `n` on are the chain of a pattern. -/
def Chain (g : Graph) (t : ℕ) : Gap → List (UInt8 × Gap) → ℕ → Prop
  | k, [], n =>
    g.node n = chainCell t k n terminalChar (n + 1) ∧ g.node (n + 1) = openCell t .none (n + 1)
  | k, (c, k') :: cells, n => g.node n = chainCell t k n c (n + 1) ∧ Chain g t k' cells (n + 1)

theorem Chain.congr {g g' : Graph} {t : ℕ} {k : Gap} {cells : List (UInt8 × Gap)} {n : ℕ}
    (h : Chain g t k cells n) (hg : ∀ j, n ≤ j → j ≤ n + cells.length + 1 → g'.node j = g.node j) :
    Chain g' t k cells n := by
  induction cells generalizing k n with
  | nil =>
    exact ⟨(hg n (Nat.le_refl n) (by simp)).trans h.1, (hg (n + 1) (by omega) (by simp)).trans h.2⟩
  | cons cell cells ih =>
    obtain ⟨c, k'⟩ := cell
    refine ⟨(hg n (Nat.le_refl n) (by omega)).trans h.1,
      ih h.2 (fun j hj hle => hg j (by omega) ?_)⟩
    rw [List.length_cons]
    omega

@[simp] theorem setNode_node (g : Graph) (n : ℕ) (x : Node) : (setNode g n x).node n = x :=
  Function.update_self ..

theorem setNode_node_of_ne (g : Graph) {n m : ℕ} (h : m ≠ n) (x : Node) :
    (setNode g n x).node m = g.node m :=
  Function.update_of_ne h ..

@[simp] theorem setNode_setNode (g : Graph) (n : ℕ) (x y : Node) :
    setNode (setNode g n x) n y = setNode g n y := by
  simp only [setNode, Function.update_idem]

theorem addEdge_loop {g : Graph} {n t : ℕ} {w var : Bytes} {edges : UInt8 → List ℕ} (v : UInt8)
    (hw : w = [] ∨ w = var) (hn : g.node n = ⟨[⟨t, w⟩], edges⟩) :
    addEdge g n n v t var =
      .ok (setNode g n ⟨[⟨t, var⟩], Function.update edges v (edges v ++ [n])⟩) := by
  simp only [addEdge, setEdges, addTerminal, setNode_node, hn, tagTerminal, if_pos, hw, ok_bind,
    setNode_setNode]
  rfl

theorem addLoops_cons {n t : ℕ} {var : Bytes} (v : UInt8) (chars : List UInt8) :
    ∀ {g : Graph} {w : Bytes} {edges : UInt8 → List ℕ}, (v :: chars).Nodup → w = [] ∨ w = var →
      g.node n = ⟨[⟨t, w⟩], edges⟩ →
      addLoops g n t var (v :: chars) =
        .ok (setNode g n ⟨[⟨t, var⟩], fun c => edges c ++ if c ∈ v :: chars then [n] else []⟩) := by
  induction chars generalizing v with
  | nil =>
    intro g w edges _ hw hn
    rw [addLoops, List.foldlM_cons, addEdge_loop v hw hn, ok_bind, List.foldlM_nil]
    congr 3
    funext c
    by_cases hc : c = v
    · simp [hc]
    · simp [hc]
  | cons v' chars ih =>
    intro g w edges hnodup hw hn
    obtain ⟨hv, hrest⟩ := List.nodup_cons.mp hnodup
    have hnext :=
      ih v' hrest (g := setNode g n ⟨[⟨t, var⟩], Function.update edges v (edges v ++ [n])⟩)
      (.inr rfl) (setNode_node ..)
    rw [addLoops, List.foldlM_cons, addEdge_loop v hw hn, ok_bind, ← addLoops, hnext,
      setNode_setNode]
    congr 3
    funext c
    by_cases hc : c = v
    · subst hc
      rw [Function.update_self, if_neg hv, if_pos List.mem_cons_self, List.append_nil]
    · rw [Function.update_of_ne hc]
      exact congrArg (edges c ++ ·) (if_congr (by simp [hc]) rfl rfl)

/-- The loops of a gap, added to a new node. -/
theorem addLoops_eq {g : Graph} {n t : ℕ} (var : Bytes) (takes : UInt8 → Bool)
    (htakes : ∃ c, takes c) (hn : g.node n = openCell t .none n) :
    addLoops g n t var (allBytes.filter takes) =
      .ok (setNode g n ⟨[⟨t, var⟩], fun c => if takes c then [n] else []⟩) := by
  obtain ⟨c, hc⟩ := htakes
  cases hchars : allBytes.filter takes with
  | nil => exact absurd (List.mem_filter.mpr ⟨mem_allBytes c, hc⟩) (by simp [hchars])
  | cons v chars =>
    have hnodup : (v :: chars).Nodup := hchars ▸ nodup_allBytes.filter _
    rw [addLoops_cons v chars hnodup (.inl rfl) hn, ← hchars]
    simp [Gap.takes, mem_allBytes]

/-- What a stretch of `insert` leaves alone. -/
def SameBelow (n : ℕ) (g g' : Graph) : Prop := ∀ j < n, g'.node j = g.node j

/-- An edge from the last node to a new one. -/
theorem addEdgeNew_eq {g : Graph} {n t : ℕ} {k : Gap} {c : UInt8} (hlast : g.length = n + 1)
    (hn : g.node n = openCell t k n) (hc : k.takes c = false) :
    ∃ g', addEdgeNew g n c t [] = .ok (g', n + 1) ∧ g'.length = n + 2 ∧ SameBelow n g g' ∧
      g'.node n = chainCell t k n c (n + 1) ∧ g'.node (n + 1) = openCell t .none (n + 1) := by
  have hnone : (openCell t k n).edges c = [] := by simp [openCell, hc]
  have hidx : (addNode g).2 = n + 1 := hlast
  have hold : ∀ j < n + 1, (addNode g).1.node j = g.node j := fun j hj =>
    Function.update_of_ne (by omega) ..
  have hnew : (addNode g).1.node (n + 1) = .blank := by
    rw [← hlast]
    exact Function.update_self ..
  have hcell : (⟨[⟨t, k.name⟩], Function.update (openCell t k n).edges c [n + 1]⟩ : Node) =
      chainCell t k n c (n + 1) := by
    simp only [openCell, chainCell, Node.mk.injEq, true_and]
    funext x
    by_cases hx : x = c
    · simp [hx, hc]
    · simp [hx]
  have hedge : addEdge (addNode g).1 n (n + 1) c t [] =
      .ok (setNode (setNode (addNode g).1 n (chainCell t k n c (n + 1))) (n + 1)
        (openCell t .none (n + 1))) := by
    rw [addEdge, setEdges, hold n (by omega), hn, hnone, addTerminal,
      setNode_node_of_ne _ (by omega), hnew, ← hcell]
    rfl
  refine ⟨setNode (setNode (addNode g).1 n (chainCell t k n c (n + 1))) (n + 1)
    (openCell t .none (n + 1)),
    ?_, ?_, fun j hj => ?_, ?_, setNode_node ..⟩
  · simp only [addEdgeNew, hn, hnone, ne_eq, not_true_eq_false, if_false, hidx, hedge]
    rfl
  · exact congrArg (· + 1) hlast
  · rw [setNode_node_of_ne _ (by omega), setNode_node_of_ne _ (by omega), hold j (by omega)]
  · rw [setNode_node_of_ne _ (by omega), setNode_node]

theorem takeWhile_name {name : Bytes} (hname : slash ∉ name) {cells : List (UInt8 × Gap)}
    (hcells : ∀ cell ∈ cells.head?, cell.1 = slash) :
    skipPathNode (name ++ renderCells cells) = (name, renderCells cells) := by
  have htake : ∀ x ∈ name, decide (x ≠ slash) = true := by
    intro x hx
    exact decide_eq_true (fun h => hname (h ▸ hx))
  rw [skipPathNode, List.takeWhile_append_of_pos htake, List.dropWhile_append_of_pos htake]
  cases cells with
  | nil => simp [renderCells]
  | cons cell cells =>
    have hslash : cell.1 = slash := hcells cell rfl
    simp [renderCells, hslash]

theorem head?_renderCells {k : Gap} {cells : List (UInt8 × Gap)} (h : CellsFit k cells) :
    (renderCells cells).head? ≠ some star ∧ (renderCells cells).head? ≠ some colon := by
  cases cells with
  | nil => simp [renderCells]
  | cons cell cells =>
    obtain ⟨-, hstar, hcolon, -, -⟩ := h
    simp [renderCells, hstar, hcolon]

theorem CellsFit.gap {k : Gap} {cells : List (UInt8 × Gap)} (h : CellsFit k cells) :
    k.Fits cells := by
  cases cells with
  | nil => exact h
  | cons cell cells => exact h.1

theorem Gap.Fits.not_takes {k k' : Gap} {c : UInt8} {cells : List (UInt8 × Gap)}
    (h : k.Fits ((c, k') :: cells)) :
    k.takes c = false := by
  cases k with
  | none => rfl
  | var name =>
    obtain ⟨-, -, hhead⟩ := h
    have hslash : c = slash := hhead _ rfl
    simp [Gap.takes, hslash]
  | rest => cases h

/-- The text of a gap, read at a new node. -/
theorem insertLoop_gap (passes : ℕ) (vars : List Bytes) {t : ℕ} {g : Graph} {n : ℕ} {k : Gap}
    {cells : List (UInt8 × Gap)} (hn : g.node n = openCell t .none n) (hfit : CellsFit k cells)
    (hnames : (vars ++ k.names).Nodup) (hpasses : (k.render ++ renderCells cells).length ≤ passes) :
    ∃ passes', (renderCells cells).length ≤ passes' ∧
      insertLoop t passes g n vars (k.render ++ renderCells cells) =
        insertLoop t passes' (setNode g n (openCell t k n)) n (vars ++ k.names)
          (renderCells cells) := by
  cases k with
  | none =>
    have hsame : setNode g n (openCell t .none n) = g := by
      rw [← hn, setNode, Function.update_eq_self]
    refine ⟨passes, by simpa [Gap.render] using hpasses, ?_⟩
    rw [hsame, Gap.render, Gap.names, List.nil_append, List.append_nil]
  | var name =>
    obtain ⟨hne, hslash, hhead⟩ := hfit.gap
    have hnew : name ∉ vars := fun hmem => by
      have := List.disjoint_of_nodup_append hnames hmem
      simp [Gap.names] at this
    have hloops :=
      addLoops_eq name (fun v => decide (v ≠ terminalChar ∧ v ≠ slash)) ⟨colon, by decide⟩ hn
    cases passes with
    | zero => simp [Gap.render] at hpasses
    | succ passes =>
      refine ⟨passes, by simp [Gap.render] at hpasses; omega, ?_⟩
      rw [Gap.render, List.cons_append, insertLoop, if_neg (by decide), if_pos rfl]
      simp only [takeWhile_name hslash hhead, hne, hnew, head?_renderCells hfit, or_self,
        if_false, hloops]
      rfl
  | rest =>
    obtain rfl : cells = [] := hfit.gap
    have hloops := addLoops_eq [] (fun v => decide (v ≠ terminalChar)) ⟨colon, by decide⟩ hn
    cases passes with
    | zero => simp [Gap.render] at hpasses
    | succ passes =>
      refine ⟨passes, by simp [renderCells], ?_⟩
      rw [Gap.render, List.cons_append, insertLoop, if_pos rfl]
      simp only [renderCells, List.flatMap_nil, List.append_nil, ne_eq, not_true_eq_false, if_false,
        Gap.names] at hloops ⊢
      rw [hloops]
      rfl

theorem insertLoop_chain {t : ℕ} (cells : List (UInt8 × Gap)) :
    ∀ {g : Graph} {k : Gap} {n passes : ℕ} {vars : List Bytes}, g.length = n + 1 →
      g.node n = openCell t k n →
      CellsFit k cells → (vars ++ cells.flatMap fun cell => cell.2.names).Nodup →
      (renderCells cells).length ≤ passes →
      ∃ g', insertLoop t passes g n vars (renderCells cells) =
          .ok (g', n + cells.length, vars ++ cells.flatMap fun cell => cell.2.names) ∧
        g'.length = n + cells.length + 1 ∧ SameBelow n g g' ∧ OpenChain g' t k cells n := by
  induction cells with
  | nil =>
    intro g k n passes vars hlast hn _ _ _
    refine ⟨g, ?_, hlast, fun _ _ => rfl, hn⟩
    rw [List.flatMap_nil, List.append_nil]
    cases passes <;> rfl
  | cons cell cells ih =>
    intro g k n passes vars hlast hn hfit hnames hpasses
    obtain ⟨c, k'⟩ := cell
    obtain ⟨hgap, hstar, hcolon, hterminal, hrest⟩ := hfit
    have htakes : k.takes c = false := Gap.Fits.not_takes hgap
    obtain ⟨g₁, hedge, hlength₁, hsame₁, hcell, hnew⟩ := addEdgeNew_eq hlast hn htakes
    have hnames' : ((vars ++ k'.names) ++ cells.flatMap fun cell => cell.2.names).Nodup := by
      rwa [List.append_assoc]
    cases passes with
    | zero => simp [renderCells] at hpasses
    | succ passes =>
      obtain ⟨passes', hpasses', hread⟩ := insertLoop_gap passes vars hnew hrest
        (List.Nodup.of_append_left hnames') (by simp [renderCells] at hpasses ⊢; omega)
      obtain ⟨g', hloop, hlength, hsame, hchain⟩ :=
        ih (g := setNode g₁ (n + 1) (openCell t k' (n + 1))) hlength₁
          (setNode_node ..) hrest hnames' hpasses'
      refine ⟨g', ?_, by rw [hlength, List.length_cons]; omega, fun j hj => ?_, ?_, hchain⟩
      · rw [show renderCells ((c, k') :: cells) = c :: (k'.render ++ renderCells cells) from rfl,
          insertLoop, if_neg hstar, if_neg hcolon, hedge, ok_bind]
        simp only [hread, hloop, List.append_assoc, List.flatMap_cons, List.length_cons,
          Nat.add_assoc, Nat.add_comm 1]
      · rw [hsame j (by omega), setNode_node_of_ne _ (by omega), hsame₁ j hj]
      · rw [hsame n (by omega), setNode_node_of_ne _ (by omega), hcell]

/-- The end of a chain. -/
theorem OpenChain.close {t : ℕ} (cells : List (UInt8 × Gap)) :
    ∀ {g : Graph} {k : Gap} {n : ℕ}, g.length = n + cells.length + 1 → CellsFit k cells →
      OpenChain g t k cells n →
      ∃ g', addEdgeNew g (n + cells.length) terminalChar t [] = .ok (g', n + cells.length + 1) ∧
        g'.length = n + cells.length + 2 ∧ SameBelow n g g' ∧ Chain g' t k cells n := by
  induction cells with
  | nil =>
    intro g k n hlast hfit hn
    obtain ⟨g', hedge, hlength, hsame, hcell, hnew⟩ :=
      addEdgeNew_eq (c := terminalChar) hlast hn (by cases k <;> rfl)
    exact ⟨g', hedge, hlength, hsame, hcell, hnew⟩
  | cons cell cells ih =>
    intro g k n hlast hfit hn
    obtain ⟨c, k'⟩ := cell
    obtain ⟨-, -, -, -, hrest⟩ := hfit
    rw [List.length_cons] at hlast
    obtain ⟨g', hedge, hlength, hsame, hchain⟩ := ih (by omega) hrest hn.2
    rw [List.length_cons, ← Nat.add_assoc, Nat.add_right_comm]
    exact ⟨g', hedge, hlength, fun j hj => hsame j (by omega),
      (hsame n (by omega)).trans hn.1, hchain⟩

/-- The graph of some patterns: the zero node leads to the chain of each of them, and all
nodes but the zero node belong to chains. -/
structure Chains (g : Graph) (ps : List Pattern) (starts : List ℕ) : Prop where
  zero : g.node 0 = ⟨[], fun c => if c = caret then starts else []⟩
  count : starts.length = ps.length
  pos : ∀ n ∈ starts, 0 < n
  chain : ∀ (i : ℕ) p n, ps[i]? = some p → starts[i]? = some n →
    Chain g i p.first p.cells n ∧ n + p.cells.length + 1 < g.length
  cover : ∀ j, 0 < j → j < g.length → ∃ (i : ℕ) (p : Pattern) (n : ℕ),
    ps[i]? = some p ∧ starts[i]? = some n ∧ n ≤ j ∧ j ≤ n + p.cells.length + 1

/-- The start of a chain behind the zero node. -/
theorem addEdge_start {g : Graph} {starts : List ℕ} {t : ℕ}
    (hzero : g.node 0 = ⟨[], fun c => if c = caret then starts else []⟩) (hlength : 0 < g.length) :
    ∃ g', addEdge (addNode g).1 0 g.length caret t [] = .ok g' ∧ g'.length = g.length + 1 ∧
      g'.node 0 = ⟨[], fun c => if c = caret then starts ++ [g.length] else []⟩ ∧
      (∀ j, 0 < j → j < g.length → g'.node j = g.node j) ∧
      g'.node g.length = openCell t .none g.length := by
  have hne : g.length ≠ 0 := by omega
  have hold : ∀ j < g.length, (addNode g).1.node j = g.node j :=
    fun j hj => Function.update_of_ne (by omega) ..
  have hnew : (addNode g).1.node g.length = .blank := Function.update_self ..
  have hedges : Function.update (fun c => if c = caret then starts else []) caret
        (starts ++ [g.length]) =
      fun c => if c = caret then starts ++ [g.length] else [] := by
    funext c
    by_cases hc : c = caret
    · simp [hc]
    · simp [hc]
  refine ⟨setNode
      (setNode (addNode g).1 0 ⟨[], fun c => if c = caret then starts ++ [g.length] else []⟩)
      g.length
    (openCell t .none g.length), ?_, rfl, ?_, fun j h0 hj => ?_, setNode_node ..⟩
  · rw [addEdge, setEdges, hold 0 hlength, hzero]
    simp only [if_true, hedges]
    rw [addTerminal, setNode_node_of_ne _ hne, hnew]
    rfl
  · rw [setNode_node_of_ne _ hne.symm, setNode_node]
  · rw [setNode_node_of_ne _ (by omega), setNode_node_of_ne _ (by omega), hold j hj]

theorem insert_eq {g : Graph} {ps : List Pattern} {starts : List ℕ} (hg : Chains g ps starts)
    (hlength : 0 < g.length) {p : Pattern} (hp : p.WellFormed) :
    ∃ g', g.insert p.render ps.length = .ok (g', p.names) ∧
      Chains g' (ps ++ [p]) (starts ++ [g.length]) ∧
      0 < g'.length := by
  obtain ⟨g₁, hstart, hlength₁, hzero₁, hsame₁, hnew⟩ :=
    addEdge_start (t := ps.length) hg.zero hlength
  obtain ⟨passes, hpasses, hread⟩ := insertLoop_gap _ [] hnew hp.fits
    (List.Nodup.of_append_left hp.names) (Nat.le_refl _)
  rw [List.nil_append] at hread
  obtain ⟨g₂, hloop, hlength₂, hsame₂, hopen⟩ := insertLoop_chain p.cells
    (g := setNode g₁ g.length (openCell ps.length p.first g.length)) hlength₁
      (setNode_node ..) hp.fits hp.names hpasses
  obtain ⟨g', hend, hlength', hsame', hchain⟩ := OpenChain.close p.cells hlength₂ hp.fits hopen
  -- the chains that were there before have kept their nodes
  have hold : ∀ j, 0 < j → j < g.length → g'.node j = g.node j := fun j h0 hj => by
    rw [hsame' j hj, hsame₂ j hj, setNode_node_of_ne _ (by omega), hsame₁ j h0 hj]
  refine ⟨g', ?_, ⟨?_, by simp [hg.count], ?_, ?_, fun j h0 hj => ?_⟩, by omega⟩
  · have hnode : (addNode g).2 = g.length := rfl
    simp only [Graph.insert, if_neg (by omega : ¬ g.length = 0), hnode, hstart, ok_bind,
      Pattern.render, hread, hloop, hend]
    rfl
  · rw [hsame' 0 hlength, hsame₂ 0 hlength, setNode_node_of_ne _ (by omega), hzero₁]
  · intro n hn
    rcases List.mem_append.mp hn with hn | hn
    · exact hg.pos n hn
    · rw [List.mem_singleton.mp hn]
      exact hlength
  · intro i q n hq hn
    by_cases hi : i < ps.length
    · rw [List.getElem?_append_left hi] at hq
      rw [List.getElem?_append_left (by rw [hg.count]; exact hi)] at hn
      obtain ⟨hold', hend'⟩ := hg.chain i q n hq hn
      have hpos := hg.pos n (List.mem_of_getElem? hn)
      exact ⟨hold'.congr fun j hj hle => hold j (by omega) (by omega), by omega⟩
    · obtain rfl : i = ps.length := by
        have := (List.getElem?_eq_some_iff.mp hq).1
        rw [List.length_append, List.length_singleton] at this
        omega
      rw [List.getElem?_concat_length, Option.some.injEq] at hq
      rw [← hg.count, List.getElem?_concat_length, Option.some.injEq] at hn
      subst hq hn
      exact ⟨hchain, by omega⟩
  · by_cases hlt : j < g.length
    · obtain ⟨i, q, n, hq, hn, hle⟩ := hg.cover j h0 hlt
      have hi := (List.getElem?_eq_some_iff.mp hq).1
      refine ⟨i, q, n, ?_, ?_, hle⟩
      · rwa [List.getElem?_append_left hi]
      · rwa [List.getElem?_append_left (by rw [hg.count]; exact hi)]
    · refine ⟨ps.length, p, g.length, List.getElem?_concat_length, ?_, by omega, by omega⟩
      rw [← hg.count, List.getElem?_concat_length]

end Owlchain.Vibe
