import Mathlib.Data.Fintype.List
import Mathlib.Data.Fintype.Card
import Mathlib.Data.List.ProdSigma
import Owlchain.Library.Subset
import Owlchain.Library.While
import Owlchain.Vibe.MatchGraph

/-! Making the pattern graph deterministic. `disambiguate` walks the graph from the zero node
with a stack. Where a character leads from a node to several nodes, it makes a new node for
that list of nodes, unless it has one already, and copies their edges and tags into it. The
node stands for the list; the walk ends because there are only finitely many lists. -/

namespace Owlchain.Vibe

open Owlchain.Library

/-- `addToArray`: append the elements that are not there yet. -/
def addToArray (arr elems : List TerminalTag) : List TerminalTag :=
  elems.foldl (fun arr e => if e ∈ arr then arr else arr ++ [e]) arr

/-- The locals of `disambiguate`; the top of the stack comes first. -/
structure Walk where
  graph : Graph
  combined : List (List ℕ × ℕ)
  visited : List ℕ
  stack : List ℕ

/-- The node made for a list of nodes. -/
def combinedNode (g : Graph) (chnodes : List ℕ) : Node where
  edges c := chnodes.flatMap fun chn => (g.node chn).edges c
  terminals := chnodes.foldl (fun arr chn => addToArray arr (g.node chn).terminals) []

/-- A new node for a list of nodes, entered in `combined_nodes`. -/
def addCombined (w : Walk) (chnodes : List ℕ) : Walk :=
  let (g, ncomb) := addNode w.graph
  { w with
    graph := setNode g ncomb (combinedNode g chnodes)
    combined := (chnodes, ncomb) :: w.combined }

/-- The body of the loop over the characters, for a node. -/
def combine (n : ℕ) (w : Walk) (ch : UInt8) : Walk :=
  let chnodes := (w.graph.node n).edges ch
  if chnodes.length ≤ 1 then w
  else match w.combined.lookup chnodes with
    | some pn => { w with graph := setEdges w.graph n ch [pn] }
    | none =>
      let ncomb := w.graph.length
      let w := addCombined w chnodes
      { w with graph := setEdges w.graph n ch [ncomb] }

/-- Push the targets of a node for every character. -/
def pushTargets (node : Node) (stack : List ℕ) : List ℕ :=
  allBytes.foldl (fun stack ch => (node.edges ch).foldl (fun stack el => el :: stack) stack) stack

/-- One pass of the outer loop; there is none if the stack is empty. -/
def walkPass (w : Walk) : Option Walk :=
  match w.stack with
  | [] => none
  | n :: stack =>
    if n ∈ w.visited then some { w with stack := stack }
    else
      let w := allBytes.foldl (combine n) { w with visited := n :: w.visited, stack := stack }
      some { w with stack := pushTargets (w.graph.node n) w.stack }

/-- `disambiguate`, cut off after a number of passes. -/
def disambiguate (g : Graph) (passes : ℕ) : Option Graph :=
  if g.length = 0 then some g else (While.loop walkPass passes ⟨g, [], [], [0]⟩).map (·.graph)

/-! ### Graphs whose zero node alone is ambiguous -/

/-- The pattern that a node belongs to. -/
def owner (g : Graph) (n : ℕ) : ℕ := ((g.node n).terminals.head?.map (·.index)).getD 0

/-- A list of nodes of different patterns, in the order of the patterns. -/
structure Ordered (g : Graph) (l : List ℕ) : Prop where
  node : ∀ n ∈ l, 0 < n ∧ n < g.length
  pairwise : l.Pairwise fun a b => owner g a < owner g b

/-- A graph in which every node but the zero node belongs to one pattern and leads, for a
character, to at most one node, of the same pattern. -/
structure Layered (g : Graph) : Prop where
  pos : 0 < g.length
  narrow : ∀ n, 0 < n → n < g.length → ∀ c, ((g.node n).edges c).length ≤ 1
  target : ∀ n, 0 < n → n < g.length → ∀ c, ∀ t ∈ (g.node n).edges c,
    0 < t ∧ t < g.length ∧ owner g t = owner g n
  tag : ∀ n, 0 < n → n < g.length → ∃ var, (g.node n).terminals = [⟨owner g n, var⟩]
  start : ∀ c, Ordered g ((g.node 0).edges c)

section Original
variable {g : Graph} {l : List ℕ}

theorem Ordered.nodup (h : Ordered g l) : l.Nodup := by
  refine List.nodup_iff_pairwise_ne.mpr (h.pairwise.imp ?_)
  rintro a b hlt rfl
  exact Nat.lt_irrefl _ hlt

theorem Ordered.singleton {n : ℕ} (h0 : 0 < n) (hn : n < g.length) : Ordered g [n] :=
  ⟨fun m hm => by rw [List.mem_singleton.mp hm]; exact ⟨h0, hn⟩, List.pairwise_singleton ..⟩

theorem Ordered.next (hg : Layered g) (h : Ordered g l) (c : UInt8) :
    Ordered g (l.flatMap fun n => (g.node n).edges c) := by
  constructor
  · intro t ht
    obtain ⟨n, hn, ht⟩ := List.mem_flatMap.mp ht
    obtain ⟨h0, hlt⟩ := h.node n hn
    obtain ⟨h0', hlt', -⟩ := hg.target n h0 hlt c t ht
    exact ⟨h0', hlt'⟩
  · refine List.pairwise_flatMap.mpr ⟨fun n hn => ?_, ?_⟩
    · obtain ⟨h0, hlt⟩ := h.node n hn
      match hedges : (g.node n).edges c, hg.narrow n h0 hlt c with
      | [], _ => exact .nil
      | [t], _ => exact List.pairwise_singleton ..
    · refine h.pairwise.imp_of_mem fun {a b} ha hb hab s hs t ht => ?_
      obtain ⟨ha0, halt⟩ := h.node a ha
      obtain ⟨hb0, hblt⟩ := h.node b hb
      rwa [(hg.target a ha0 halt c s hs).2.2, (hg.target b hb0 hblt c t ht).2.2]

/-- No tag is there twice, so a combined node has the tags of its nodes, in order. -/
theorem Ordered.foldl_addToArray (hg : Layered g) (h : Ordered g l) (arr : List TerminalTag)
    (harr : ∀ t ∈ arr, ∀ n ∈ l, t.index < owner g n) :
    l.foldl (fun arr n => addToArray arr (g.node n).terminals) arr =
      arr ++ l.flatMap fun n => (g.node n).terminals := by
  induction l generalizing arr with
  | nil => simp
  | cons n l ih =>
    obtain ⟨hn, hrest⟩ := List.pairwise_cons.mp h.pairwise
    have hl : Ordered g l := ⟨fun m hm => h.node m (List.mem_cons_of_mem n hm), hrest⟩
    obtain ⟨h0, hlt⟩ := h.node n List.mem_cons_self
    obtain ⟨var, hvar⟩ := hg.tag n h0 hlt
    have hnew : (⟨owner g n, var⟩ : TerminalTag) ∉ arr := fun hmem =>
      Nat.lt_irrefl _ (harr _ hmem n List.mem_cons_self)
    have hadd : addToArray arr (g.node n).terminals = arr ++ [⟨owner g n, var⟩] := by
      rw [hvar]
      exact if_neg hnew
    rw [List.foldl_cons, hadd, ih hl, List.flatMap_cons, hvar, List.append_assoc]
    intro t ht m hm
    rcases List.mem_append.mp ht with ht | ht
    · exact harr t ht m (List.mem_cons_of_mem n hm)
    · rw [List.mem_singleton.mp ht]
      exact hn m hm

end Original

/-! ### What the nodes stand for -/

/-- Every node stands for a list of nodes of the graph `g` at the start of the walk: its
edges lead where theirs lead, and its tags are theirs. -/
structure Stands (g : Graph) (rep : ℕ → List ℕ) (w : Walk) : Prop where
  length : w.graph.length = g.length + w.combined.length
  original : ∀ n < g.length, rep n = [n]
  same : ∀ n, 0 < n → n < g.length → w.graph.node n = g.node n
  key : ∀ l n, (l, n) ∈ w.combined → g.length ≤ n ∧ n < w.graph.length ∧ rep n = l
  keys : (w.combined.map Prod.fst).Nodup
  ordered : ∀ n, 0 < n → n < w.graph.length → Ordered g (rep n)
  tags : ∀ n, 0 < n → n < w.graph.length →
    (w.graph.node n).terminals = (rep n).flatMap fun q => (g.node q).terminals
  edges : ∀ n < w.graph.length, ∀ c,
    ((w.graph.node n).edges c).flatMap rep = (rep n).flatMap fun q => (g.node q).edges c
  target : ∀ n < w.graph.length, ∀ c, ∀ t ∈ (w.graph.node n).edges c, 0 < t ∧ t < w.graph.length
  plain : ∀ n < w.graph.length, ∀ c, 1 < ((w.graph.node n).edges c).length →
    ∀ t ∈ (w.graph.node n).edges c, t < g.length

theorem flatMap_eq_self {rep : ℕ → List ℕ} {l : List ℕ} (h : ∀ n ∈ l, rep n = [n]) :
    l.flatMap rep = l := by
  rw [List.flatMap_congr h, List.flatMap_singleton']

section Stands
variable {g : Graph} {rep : ℕ → List ℕ} {w : Walk}

/-- An ambiguous edge leads to an ordered list of nodes, for which the new node can stand. -/
theorem Stands.ambiguous (hg : Layered g) (h : Stands g rep w) {n : ℕ} (hn : n < w.graph.length)
    {ch : UInt8} (hch : 1 < ((w.graph.node n).edges ch).length) :
    (rep n).flatMap (fun q => (g.node q).edges ch) = (w.graph.node n).edges ch ∧
      Ordered g ((w.graph.node n).edges ch) := by
  have hself : ((w.graph.node n).edges ch).flatMap rep = (w.graph.node n).edges ch :=
    flatMap_eq_self fun t ht => h.original t (h.plain n hn ch hch t ht)
  have heq := (h.edges n hn ch).symm.trans hself
  refine ⟨heq, heq ▸ ?_⟩
  by_cases h0 : n = 0
  · rw [h0, h.original 0 hg.pos, List.flatMap_singleton]
    exact hg.start ch
  · exact (h.ordered n (by omega) hn).next hg ch

/-- An ambiguous edge is not one of the nodes of the patterns. -/
theorem Stands.ambiguous_node (hg : Layered g) (h : Stands g rep w) {n : ℕ} {ch : UInt8}
    (hch : 1 < ((w.graph.node n).edges ch).length) : n = 0 ∨ g.length ≤ n := by
  by_contra hnot
  have hlt : 0 < n ∧ n < g.length := by omega
  rw [h.same n hlt.1 hlt.2] at hch
  exact absurd (hg.narrow n hlt.1 hlt.2 ch) (by omega)

/-- An ambiguous edge is replaced by one to a node that stands for its targets. -/
theorem Stands.setEdges (hg : Layered g) (h : Stands g rep w) {n k : ℕ} (ch : UInt8)
    (hn : n < w.graph.length) (hch : 1 < ((w.graph.node n).edges ch).length)
    (hk : 0 < k ∧ k < w.graph.length) (hrep : rep k = (w.graph.node n).edges ch) :
    Stands g rep { w with graph := setEdges w.graph n ch [k] } := by
  have hedges : ∀ m c, ((Vibe.setEdges w.graph n ch [k]).node m).edges c =
      if m = n ∧ c = ch then [k] else (w.graph.node m).edges c := by
    intro m c
    by_cases hm : m = n
    · subst hm
      rw [Vibe.setEdges, setNode_node]
      by_cases hc : c = ch
      · rw [hc, if_pos ⟨rfl, rfl⟩]
        exact Function.update_self ..
      · rw [if_neg fun hmc => hc hmc.2]
        exact Function.update_of_ne hc ..
    · rw [Vibe.setEdges, setNode_node_of_ne _ hm, if_neg fun hmc => hm hmc.1]
  have htags : ∀ m, ((Vibe.setEdges w.graph n ch [k]).node m).terminals =
      (w.graph.node m).terminals := by
    intro m
    by_cases hm : m = n
    · rw [hm, Vibe.setEdges, setNode_node]
    · rw [Vibe.setEdges, setNode_node_of_ne _ hm]
  refine { h with same := ?_, tags := ?_, edges := ?_, target := ?_, plain := ?_ }
  · intro m h0 hm
    have hne : m ≠ n := by have := h.ambiguous_node hg hch; omega
    rw [← h.same m h0 hm]
    exact setNode_node_of_ne _ hne _
  · intro m h0 hm
    rw [← h.tags m h0 hm]
    exact htags m
  · intro m hm c
    dsimp only
    rw [hedges]
    by_cases hmc : m = n ∧ c = ch
    · obtain ⟨rfl, rfl⟩ := hmc
      rw [if_pos ⟨rfl, rfl⟩, List.flatMap_singleton, hrep, (h.ambiguous hg hn hch).1]
    · rw [if_neg hmc, h.edges m hm c]
  · intro m hm c t ht
    dsimp only at ht
    rw [hedges] at ht
    by_cases hmc : m = n ∧ c = ch
    · rw [if_pos hmc, List.mem_singleton] at ht
      rw [ht]
      exact hk
    · rw [if_neg hmc] at ht
      exact h.target m hm c t ht
  · intro m hm c hlen t ht
    dsimp only at hlen ht
    rw [hedges] at hlen ht
    by_cases hmc : m = n ∧ c = ch
    · rw [if_pos hmc] at hlen
      exact absurd hlen (by simp)
    · rw [if_neg hmc] at hlen ht
      exact h.plain m hm c hlen t ht

theorem addCombined_node_of_lt (chnodes : List ℕ) {n : ℕ} (hn : n < w.graph.length) :
    (addCombined w chnodes).graph.node n = w.graph.node n := by
  exact (setNode_node_of_ne _ (Nat.ne_of_lt hn) _).trans
    (Function.update_of_ne (Nat.ne_of_lt hn) ..)

theorem Stands.addCombined (hg : Layered g) (h : Stands g rep w) {chnodes : List ℕ}
    (hord : Ordered g chnodes) (hnew : chnodes ∉ w.combined.map Prod.fst) :
    Stands g (Function.update rep w.graph.length chnodes) (addCombined w chnodes) := by
  have hle : g.length ≤ w.graph.length := by rw [h.length]; omega
  have hlength : (Vibe.addCombined w chnodes).graph.length = w.graph.length + 1 := rfl
  have hold : ∀ n < w.graph.length, (Vibe.addCombined w chnodes).graph.node n = w.graph.node n :=
    fun n hn => addCombined_node_of_lt chnodes hn
  have hrep : ∀ n < w.graph.length, Function.update rep w.graph.length chnodes n = rep n :=
    fun n hn => Function.update_of_ne (by omega) ..
  have hrepnew : Function.update rep w.graph.length chnodes w.graph.length = chnodes :=
    Function.update_self ..
  have hself : ∀ n < g.length, Function.update rep w.graph.length chnodes n = [n] :=
    fun n hn => (hrep n (by omega)).trans (h.original n hn)
  -- the nodes of the list are nodes of the patterns, which the walk leaves alone
  have hnode : ∀ q ∈ chnodes, (addNode w.graph).1.node q = g.node q := by
    intro q hq
    obtain ⟨h0, hlt⟩ := hord.node q hq
    rw [← h.same q h0 hlt]
    exact Function.update_of_ne (by omega) ..
  have hcomb : (Vibe.addCombined w chnodes).graph.node w.graph.length =
      ⟨chnodes.flatMap fun q => (g.node q).terminals,
        fun c => chnodes.flatMap fun q => (g.node q).edges c⟩ := by
    refine (setNode_node (addNode w.graph).1 ..).trans ?_
    rw [combinedNode, Node.mk.injEq]
    constructor
    · rw [← List.nil_append (chnodes.flatMap _), ← hord.foldl_addToArray hg [] (by simp)]
      exact List.foldl_ext _ _ _ fun arr q hq => congrArg (addToArray arr ·.terminals) (hnode q hq)
    · funext c
      exact List.flatMap_congr fun q hq => congrArg (·.edges c) (hnode q hq)
  have hnext : ∀ c, Ordered g (chnodes.flatMap fun q => (g.node q).edges c) :=
    fun c => hord.next hg c
  have hcases : ∀ n, n < w.graph.length + 1 → n < w.graph.length ∨ n = w.graph.length :=
    fun n hn => by omega
  constructor
  case length => rw [hlength, h.length]; rfl
  case original => exact hself
  case same => exact fun n h0 hn => (hold n (by omega)).trans (h.same n h0 hn)
  case key =>
    intro l n hmem
    rcases List.mem_cons.mp hmem with heq | hmem
    · obtain ⟨rfl, rfl⟩ := Prod.mk.inj heq
      exact ⟨hle, by omega, hrepnew⟩
    · obtain ⟨h₁, h₂, h₃⟩ := h.key l n hmem
      exact ⟨h₁, by omega, (hrep n h₂).trans h₃⟩
  case keys => exact List.nodup_cons.mpr ⟨hnew, h.keys⟩
  case ordered =>
    intro n h0 hn
    rcases hcases n hn with hn | rfl
    · rw [hrep n hn]
      exact h.ordered n h0 hn
    · rwa [hrepnew]
  case tags =>
    intro n h0 hn
    rcases hcases n hn with hn | rfl
    · rw [hrep n hn, hold n hn, h.tags n h0 hn]
    · rw [hrepnew, hcomb]
  case edges =>
    intro n hn c
    rcases hcases n hn with hn | rfl
    · rw [hrep n hn, hold n hn, ← h.edges n hn c]
      exact List.flatMap_congr fun t ht => hrep t (h.target n hn c t ht).2
    · rw [hrepnew, hcomb]
      exact flatMap_eq_self fun t ht => hself t ((hnext c).node t ht).2
  case target =>
    intro n hn c t ht
    rcases hcases n hn with hn | rfl
    · rw [hold n hn] at ht
      obtain ⟨h0, hlt⟩ := h.target n hn c t ht
      exact ⟨h0, by omega⟩
    · rw [hcomb] at ht
      obtain ⟨h0, hlt⟩ := (hnext c).node t ht
      exact ⟨h0, by omega⟩
  case plain =>
    intro n hn c hlen t ht
    rcases hcases n hn with hn | rfl
    · rw [hold n hn] at hlen ht
      exact h.plain n hn c hlen t ht
    · rw [hcomb] at ht
      exact ((hnext c).node t ht).2

end Stands

/-! ### Visiting a node -/

/-- What combining the edges of a node leaves alone. -/
structure Framed (n : ℕ) (w w' : Walk) : Prop where
  length : w.graph.length ≤ w'.graph.length
  visited : w'.visited = w.visited
  stack : w'.stack = w.stack
  other : ∀ m < w.graph.length, m ≠ n → w'.graph.node m = w.graph.node m
  narrow : ∀ c, ((w.graph.node n).edges c).length ≤ 1 → ((w'.graph.node n).edges c).length ≤ 1

theorem Framed.refl (n : ℕ) (w : Walk) : Framed n w w :=
  ⟨Nat.le_refl _, rfl, rfl, fun _ _ _ => rfl, fun _ h => h⟩

theorem Framed.trans {n : ℕ} {w₁ w₂ w₃ : Walk} (h : Framed n w₁ w₂) (h' : Framed n w₂ w₃) :
    Framed n w₁ w₃ where
  length := Nat.le_trans h.length h'.length
  visited := h'.visited.trans h.visited
  stack := h'.stack.trans h.stack
  other m hm hne := (h'.other m (Nat.lt_of_lt_of_le hm h.length) hne).trans (h.other m hm hne)
  narrow c hc := h'.narrow c (h.narrow c hc)

theorem setEdges_framed {n k : ℕ} {w : Walk} {ch : UInt8} :
    Framed n w { w with graph := setEdges w.graph n ch [k] } ∧
      (((setEdges w.graph n ch [k]).node n).edges ch).length ≤ 1 := by
  have hself : ((setEdges w.graph n ch [k]).node n).edges ch = [k] := by
    rw [setEdges, setNode_node]
    exact Function.update_self ..
  refine ⟨⟨Nat.le_refl _, rfl, rfl, fun m _ hne => setNode_node_of_ne _ hne _, fun c hc => ?_⟩,
    by simp [hself]⟩
  by_cases hch : c = ch
  · rw [hch]
    simp [hself]
  · dsimp only
    rw [setEdges, setNode_node]
    dsimp only
    rwa [Function.update_of_ne hch]

theorem Stands.combine {g : Graph} (hg : Layered g) {w : Walk} (h : ∃ rep, Stands g rep w) {n : ℕ}
    (hn : n < w.graph.length) (ch : UInt8) :
    (∃ rep, Stands g rep (combine n w ch)) ∧ Framed n w (combine n w ch) ∧
      (((combine n w ch).graph.node n).edges ch).length ≤ 1 := by
  obtain ⟨rep, h⟩ := h
  rw [Vibe.combine]
  by_cases hlen : ((w.graph.node n).edges ch).length ≤ 1
  · rw [if_pos hlen]
    exact ⟨⟨rep, h⟩, Framed.refl n w, hlen⟩
  · have hch : 1 < ((w.graph.node n).edges ch).length := by omega
    rw [if_neg hlen]
    cases hlookup : w.combined.lookup ((w.graph.node n).edges ch) with
    | some k =>
      obtain ⟨l₁, l₂, hsplit, -⟩ := List.lookup_eq_some_iff.mp hlookup
      obtain ⟨hle, hlt, hrep⟩ := h.key ((w.graph.node n).edges ch) k (by simp [hsplit])
      exact ⟨⟨rep, h.setEdges hg ch hn hch ⟨Nat.lt_of_lt_of_le hg.pos hle, hlt⟩ hrep⟩,
        setEdges_framed⟩
    | none =>
      have hnew : (w.graph.node n).edges ch ∉ w.combined.map Prod.fst := by
        intro hmem
        obtain ⟨p, hp, heq⟩ := List.mem_map.mp hmem
        have := List.lookup_eq_none_iff.mp hlookup p hp
        simp [heq] at this
      have hadd := h.addCombined hg (h.ambiguous hg hn hch).2 hnew
      have hold := addCombined_node_of_lt ((w.graph.node n).edges ch) hn
      have hframe : Framed n w (Vibe.addCombined w ((w.graph.node n).edges ch)) :=
        ⟨Nat.le_succ _, rfl, rfl, fun m hm _ => addCombined_node_of_lt _ hm,
          fun c hc => by rwa [hold]⟩
      have hset :=
        hadd.setEdges hg (n := n) (k := w.graph.length) ch (Nat.lt_succ_of_lt hn) (by rwa [hold])
        ⟨Nat.lt_of_le_of_lt (Nat.zero_le n) hn, Nat.lt_succ_self _⟩
          (by rw [hold]; exact Function.update_self ..)
      exact ⟨⟨_, hset⟩, hframe.trans setEdges_framed.1, setEdges_framed.2⟩

theorem Stands.combine_all {g : Graph} (hg : Layered g) {n : ℕ} (chars : List UInt8) :
    ∀ {w : Walk}, (∃ rep, Stands g rep w) → n < w.graph.length →
      (∃ rep, Stands g rep (chars.foldl (Vibe.combine n) w)) ∧
      Framed n w (chars.foldl (Vibe.combine n) w) ∧
      ∀ c ∈ chars, (((chars.foldl (Vibe.combine n) w).graph.node n).edges c).length ≤ 1 := by
  induction chars with
  | nil => exact fun {w} h _ => ⟨h, Framed.refl n w, by simp⟩
  | cons ch chars ih =>
    intro w h hn
    obtain ⟨h₁, hframe₁, hch⟩ := Stands.combine hg h hn ch
    obtain ⟨h₂, hframe₂, hchars⟩ := ih h₁ (Nat.lt_of_lt_of_le hn hframe₁.length)
    refine ⟨h₂, hframe₁.trans hframe₂, fun c hc => ?_⟩
    rcases List.mem_cons.mp hc with rfl | hc
    · exact hframe₂.narrow c hch
    · exact hchars c hc

/-! ### The walk -/

theorem mem_pushTargets {node : Node} {stack : List ℕ} {m : ℕ} :
    m ∈ pushTargets node stack ↔ (∃ c, m ∈ node.edges c) ∨ m ∈ stack := by
  simp [pushTargets, mem_allBytes]

/-- Every node that was visited has unambiguous edges, which lead to nodes that were visited
or wait on the stack. -/
structure Settled (g : Graph) (w : Walk) : Prop where
  stands : ∃ rep, Stands g rep w
  visited_lt : ∀ n ∈ w.visited, n < w.graph.length
  stack_lt : ∀ n ∈ w.stack, n < w.graph.length
  nodup : w.visited.Nodup
  zero : 0 ∈ w.visited ∨ 0 ∈ w.stack
  narrow : ∀ n ∈ w.visited, ∀ c, ((w.graph.node n).edges c).length ≤ 1
  closed : ∀ n ∈ w.visited, ∀ c, ∀ t ∈ (w.graph.node n).edges c, t ∈ w.visited ∨ t ∈ w.stack

section Settled
variable {g : Graph} {w : Walk}

theorem Settled.start (hg : Layered g) : Settled g ⟨g, [], [], [0]⟩ := by
  have hcases : ∀ n < g.length, n = 0 ∨ 0 < n := fun n _ => by omega
  have hord : ∀ n < g.length, ∀ c, Ordered g ((g.node n).edges c) := by
    intro n hn c
    rcases hcases n hn with rfl | h0
    · exact hg.start c
    · have := (Ordered.singleton h0 hn).next hg c
      rwa [List.flatMap_singleton] at this
  refine ⟨⟨fun n => [n], ?_⟩, by simp, by simp [hg.pos], .nil, by simp, by simp, by simp⟩
  constructor
  case length => rfl
  case original => exact fun _ _ => rfl
  case same => exact fun _ _ _ => rfl
  case key => simp
  case keys => exact .nil
  case ordered => exact fun n h0 hn => Ordered.singleton h0 hn
  case tags => exact fun n _ _ => (List.flatMap_singleton ..).symm
  case edges => exact fun n _ c => by rw [List.flatMap_singleton', List.flatMap_singleton]
  case target => exact fun n hn c t ht => (hord n hn c).node t ht
  case plain => exact fun n hn c _ t ht => ((hord n hn c).node t ht).2

/-- A visit. -/
theorem Settled.visit (hg : Layered g) (h : Settled g w) {n : ℕ} {stack : List ℕ}
    (hstack : w.stack = n :: stack) (hn : n ∉ w.visited) {w' : Walk}
    (hw : w' = allBytes.foldl (combine n) { w with visited := n :: w.visited, stack := stack })
    {stack' : List ℕ}
    (hstack' : ∀ m, m ∈ stack' ↔ (∃ c, m ∈ (w'.graph.node n).edges c) ∨ m ∈ w'.stack) :
    Settled g { w' with stack := stack' } ∧ w'.visited = n :: w.visited := by
  have hlt : n < w.graph.length := h.stack_lt n (by rw [hstack]; exact List.mem_cons_self)
  obtain ⟨rep, hrep⟩ := h.stands
  obtain ⟨hstands, hframe, hnarrow⟩ := Stands.combine_all hg allBytes
    (w := { w with visited := n :: w.visited, stack := stack })
    ⟨rep, ⟨hrep.length, hrep.original, hrep.same, hrep.key, hrep.keys, hrep.ordered,
      hrep.tags, hrep.edges, hrep.target, hrep.plain⟩⟩ hlt
  rw [← hw] at hstands hframe hnarrow
  have hvisited : w'.visited = n :: w.visited := hframe.visited
  have hlen : w.graph.length ≤ w'.graph.length := hframe.length
  have hpush : ∀ m, m ∈ stack' ↔ (∃ c, m ∈ (w'.graph.node n).edges c) ∨ m ∈ stack := by
    intro m
    rw [hstack', hframe.stack]
  have hold : ∀ m ∈ w.visited, w'.graph.node m = w.graph.node m := fun m hm =>
    hframe.other m (h.visited_lt m hm) (fun heq => hn (heq ▸ hm))
  have hwait : ∀ t, t ∈ w.visited ∨ t ∈ w.stack → t ∈ w'.visited ∨ t ∈ stack' := by
    intro t ht
    rw [hvisited, hpush, List.mem_cons]
    rw [hstack, List.mem_cons] at ht
    tauto
  obtain ⟨rep', hrep'⟩ := hstands
  refine ⟨⟨⟨rep', ⟨hrep'.length, hrep'.original, hrep'.same, hrep'.key, hrep'.keys,
    hrep'.ordered, hrep'.tags, hrep'.edges, hrep'.target, hrep'.plain⟩⟩, ?_, ?_, ?_,
    hwait 0 h.zero, ?_, ?_⟩, hvisited⟩
  · intro m hm
    rw [hvisited, List.mem_cons] at hm
    rcases hm with rfl | hm
    · exact Nat.lt_of_lt_of_le hlt hlen
    · exact Nat.lt_of_lt_of_le (h.visited_lt m hm) hlen
  · intro m hm
    rcases (hpush m).mp hm with ⟨c, hc⟩ | hm
    · exact (hrep'.target n (Nat.lt_of_lt_of_le hlt hlen) c m hc).2
    · exact Nat.lt_of_lt_of_le (h.stack_lt m (by rw [hstack]; exact List.mem_cons_of_mem n hm)) hlen
  · rw [hvisited]
    exact List.nodup_cons.mpr ⟨hn, h.nodup⟩
  · intro m hm c
    rw [hvisited, List.mem_cons] at hm
    rcases hm with rfl | hm
    · exact hnarrow c (mem_allBytes c)
    · rw [hold m hm]
      exact h.narrow m hm c
  · intro m hm c t ht
    rw [hvisited, List.mem_cons] at hm
    rcases hm with rfl | hm
    · exact .inr ((hpush t).mpr (.inl ⟨c, ht⟩))
    · rw [hold m hm] at ht
      exact hwait t (h.closed m hm c t ht)

/-- The number of lists of nodes without repetitions. -/
def lists (m : ℕ) : ℕ := Fintype.card { l : List (Fin m) // l.Nodup }

theorem Stands.combined_length_le (hg : Layered g) {rep : ℕ → List ℕ} (h : Stands g rep w) :
    w.combined.length ≤ lists g.length := by
  have hsub : w.combined.map Prod.fst ⊆
      (Finset.univ : Finset { l : List (Fin g.length) // l.Nodup }).toList.map fun l =>
        l.1.map Fin.val := by
    intro l hl
    obtain ⟨⟨l', n⟩, hmem, rfl⟩ := List.mem_map.mp hl
    obtain ⟨hle, hlt, hrep⟩ := h.key l' n hmem
    have hord := h.ordered n (Nat.lt_of_lt_of_le hg.pos hle) hlt
    rw [hrep] at hord
    have hval : (l'.pmap Fin.mk fun q hq => (hord.node q hq).2).map Fin.val = l' := by
      rw [List.map_pmap, List.pmap_eq_map, List.map_id']
    refine List.mem_map.mpr ⟨⟨l'.pmap Fin.mk fun q hq => (hord.node q hq).2, ?_⟩, by simp, hval⟩
    refine List.Nodup.of_map Fin.val ?_
    rw [hval]
    exact hord.nodup
  have := (List.subperm_of_subset h.keys hsub).length_le
  rwa [List.length_map, List.length_map, Finset.length_toList, Finset.card_univ] at this

theorem Settled.visited_length_le (hg : Layered g) (h : Settled g w) :
    w.visited.length ≤ g.length + lists g.length := by
  obtain ⟨rep, hrep⟩ := h.stands
  have hsub : w.visited ⊆ List.range w.graph.length :=
    fun n hn => List.mem_range.mpr (h.visited_lt n hn)
  have hlen := (List.subperm_of_subset h.nodup hsub).length_le
  have hcombined := hrep.combined_length_le hg
  rw [List.length_range, hrep.length] at hlen
  omega

/-- A pass either visits a node or drops one that was visited. -/
theorem Settled.pass (hg : Layered g) (h : Settled g w) {w' : Walk} (hw : walkPass w = some w') :
    Settled g w' ∧
    Prod.Lex (· < ·) (· < ·) (g.length + lists g.length - w'.visited.length, w'.stack.length)
      (g.length + lists g.length - w.visited.length, w.stack.length) := by
  rw [walkPass] at hw
  cases hstack : w.stack with
  | nil => simp [hstack] at hw
  | cons n stack =>
    rw [hstack] at hw
    dsimp only at hw
    by_cases hn : n ∈ w.visited
    · rw [if_pos hn, Option.some.injEq] at hw
      subst hw
      have hwait : ∀ t, t ∈ w.visited ∨ t ∈ w.stack → t ∈ w.visited ∨ t ∈ stack := by
        intro t ht
        rw [hstack, List.mem_cons] at ht
        rcases ht with ht | rfl | ht
        · exact .inl ht
        · exact .inl hn
        · exact .inr ht
      obtain ⟨rep, hrep⟩ := h.stands
      refine ⟨⟨⟨rep, ⟨hrep.length, hrep.original, hrep.same, hrep.key, hrep.keys, hrep.ordered,
        hrep.tags, hrep.edges, hrep.target, hrep.plain⟩⟩, h.visited_lt,
        fun m hm => ?_, h.nodup, hwait 0 h.zero, h.narrow,
        fun m hm c t ht => hwait t (h.closed m hm c t ht)⟩, Prod.Lex.right _ (by simp)⟩
      exact h.stack_lt m (by rw [hstack]; exact List.mem_cons_of_mem n hm)
    · rw [if_neg hn, Option.some.injEq] at hw
      obtain ⟨hsettled, hvisited⟩ := h.visit hg hstack hn rfl fun m => mem_pushTargets
      rw [hw] at hsettled
      refine ⟨hsettled, Prod.Lex.left _ _ ?_⟩
      have hle := hsettled.visited_length_le hg
      have hlen : w'.visited.length = w.visited.length + 1 := by
        rw [← hw]
        dsimp only
        rw [hvisited, List.length_cons]
      omega

end Settled

/-- A graph without ambiguous edges, whose nodes stand for lists of nodes of another graph. -/
structure Resolved (g g' : Graph) (rep : ℕ → List ℕ) (live : ℕ → Prop) : Prop where
  zero : live 0 ∧ rep 0 = [0]
  lt : ∀ n, live n → n < g'.length
  narrow : ∀ n, live n → ∀ c, ((g'.node n).edges c).length ≤ 1
  target : ∀ n, live n → ∀ c, ∀ t ∈ (g'.node n).edges c, 0 < t ∧ live t
  edges : ∀ n, live n → ∀ c,
    ((g'.node n).edges c).flatMap rep = (rep n).flatMap fun q => (g.node q).edges c
  ordered : ∀ n, live n → 0 < n → Ordered g (rep n)
  tags : ∀ n, live n → 0 < n → (g'.node n).terminals = (rep n).flatMap fun q => (g.node q).terminals

/-- `disambiguate` comes to an end and resolves the graph. -/
theorem disambiguate_resolves {g : Graph} (hg : Layered g) :
    ∃ g' rep live, Resolved g g' rep live ∧
      ∃ bound, ∀ passes, bound ≤ passes → disambiguate g passes = some g' := by
  obtain ⟨w, hw, hdone, bound, hloop⟩ := While.loop_terminates
    (WellFounded.prod_lex Nat.lt_wfRel.wf Nat.lt_wfRel.wf)
    (fun w : Walk => (g.length + lists g.length - w.visited.length, w.stack.length))
      (Settled g) walkPass
    (fun w w' h hw => h.pass hg hw) ⟨g, [], [], [0]⟩ (Settled.start hg)
  have hstack : w.stack = [] := by
    rw [walkPass] at hdone
    split at hdone
    · assumption
    · split at hdone <;> cases hdone
  obtain ⟨rep, hrep⟩ := hw.stands
  have hzero : 0 ∈ w.visited := by simpa [hstack] using hw.zero
  refine ⟨w.graph, rep, (· ∈ w.visited),
    ⟨⟨hzero, hrep.original 0 hg.pos⟩, hw.visited_lt, hw.narrow, ?_, ?_, ?_, ?_⟩, bound,
    fun passes hp => ?_⟩
  · intro n hn c t ht
    refine ⟨(hrep.target n (hw.visited_lt n hn) c t ht).1, ?_⟩
    simpa [hstack] using hw.closed n hn c t ht
  · exact fun n hn c => hrep.edges n (hw.visited_lt n hn) c
  · exact fun n hn h0 => hrep.ordered n h0 (hw.visited_lt n hn)
  · exact fun n hn h0 => hrep.tags n h0 (hw.visited_lt n hn)
  · rw [disambiguate, if_neg (by have := hg.pos; omega), hloop passes hp]
    rfl

/-! ### The graph of some patterns -/

theorem Chain.node {g : Graph} {t : ℕ} {k : Gap} {cells : List (UInt8 × Gap)} {n : ℕ}
    (h : Chain g t k cells n) {j : ℕ} (hle : n ≤ j) (hlt : j ≤ n + cells.length + 1) :
    (∃ var, (g.node j).terminals = [⟨t, var⟩]) ∧ ∀ c, ((g.node j).edges c).length ≤ 1 ∧
      ∀ m ∈ (g.node j).edges c, n ≤ m ∧ m ≤ n + cells.length + 1 := by
  -- a node of a chain leads to itself and to the next one
  have hcell : ∀ (k : Gap) (n : ℕ) (c : UInt8),
      (∃ var, (chainCell t k n c (n + 1)).terminals = [⟨t, var⟩]) ∧
        ∀ x, ((chainCell t k n c (n + 1)).edges x).length ≤ 1 ∧
          ∀ m ∈ (chainCell t k n c (n + 1)).edges x, n ≤ m ∧ m ≤ n + 1 := by
    intro k n c
    refine ⟨⟨k.name, rfl⟩, fun x => ?_⟩
    simp only [chainCell]
    split_ifs <;> simp
  induction cells generalizing k n with
  | nil =>
    rw [List.length_nil] at hlt ⊢
    obtain rfl | rfl : j = n ∨ j = n + 1 := by omega
    · rw [h.1]
      exact hcell k j terminalChar
    · rw [h.2]
      exact ⟨⟨_, rfl⟩, by simp [openCell, Gap.takes]⟩
  | cons cell cells ih =>
    obtain ⟨c, k'⟩ := cell
    rw [List.length_cons] at hlt ⊢
    by_cases hj : j = n
    · subst hj
      rw [h.1]
      obtain ⟨hvar, hedges⟩ := hcell k j c
      refine ⟨hvar, fun x => ⟨(hedges x).1, fun m hm => ?_⟩⟩
      have := (hedges x).2 m hm
      omega
    · obtain ⟨hvar, hedges⟩ := ih h.2 (by omega) (by omega)
      refine ⟨hvar, fun x => ⟨(hedges x).1, fun m hm => ?_⟩⟩
      have := (hedges x).2 m hm
      omega

theorem Chains.node {g : Graph} {ps : List Pattern} {starts : List ℕ} (h : Chains g ps starts)
    {i : ℕ} {p : Pattern} {n j : ℕ} (hp : ps[i]? = some p) (hn : starts[i]? = some n) (hle : n ≤ j)
    (hlt : j ≤ n + p.cells.length + 1) :
    owner g j = i ∧ (∃ var, (g.node j).terminals = [⟨i, var⟩]) ∧
      ∀ c, ((g.node j).edges c).length ≤ 1 ∧
      ∀ m ∈ (g.node j).edges c, n ≤ m ∧ m ≤ n + p.cells.length + 1 := by
  obtain ⟨⟨var, htags⟩, hedges⟩ := (h.chain i p n hp hn).1.node hle hlt
  exact ⟨by rw [owner, htags]; rfl, ⟨var, htags⟩, hedges⟩

theorem Chains.owner_start {g : Graph} {ps : List Pattern} {starts : List ℕ}
    (h : Chains g ps starts) {i n : ℕ} (hn : starts[i]? = some n) :
    owner g n = i ∧ 0 < n ∧ n < g.length := by
  have hi : i < ps.length := h.count ▸ (List.getElem?_eq_some_iff.mp hn).1
  have hp : ps[i]? = some ps[i] := List.getElem?_eq_getElem hi
  have hlt := (h.chain i ps[i] n hp hn).2
  exact ⟨(h.node hp hn (Nat.le_refl n) (by omega)).1, h.pos n (List.mem_of_getElem? hn), by omega⟩

theorem Chains.layered {g : Graph} {ps : List Pattern} {starts : List ℕ} (h : Chains g ps starts)
    (hpos : 0 < g.length) :
    Layered g := by
  constructor
  case pos => exact hpos
  case narrow =>
    intro j h0 hj c
    obtain ⟨i, p, n, hp, hn, hle, hlt⟩ := h.cover j h0 hj
    obtain ⟨-, -, hedges⟩ := h.node hp hn hle hlt
    exact (hedges c).1
  case target =>
    intro j h0 hj c t ht
    obtain ⟨i, p, n, hp, hn, hle, hlt⟩ := h.cover j h0 hj
    obtain ⟨howner, -, hedges⟩ := h.node hp hn hle hlt
    obtain ⟨htle, htlt⟩ := (hedges c).2 t ht
    have hn0 := h.pos n (List.mem_of_getElem? hn)
    have hend := (h.chain i p n hp hn).2
    exact ⟨by omega, by omega, by rw [howner, (h.node hp hn htle htlt).1]⟩
  case tag =>
    intro j h0 hj
    obtain ⟨i, p, n, hp, hn, hle, hlt⟩ := h.cover j h0 hj
    obtain ⟨howner, htags, -⟩ := h.node hp hn hle hlt
    rwa [howner]
  case start =>
    intro c
    rw [h.zero]
    dsimp only
    split_ifs
    · refine ⟨fun n hn => ?_, List.pairwise_iff_getElem.mpr fun i j hi hj hij => ?_⟩
      · obtain ⟨i, hi⟩ := List.mem_iff_getElem?.mp hn
        exact (h.owner_start hi).2
      · rw [(h.owner_start (List.getElem?_eq_getElem hi)).1,
          (h.owner_start (List.getElem?_eq_getElem hj)).1]
        exact hij
    · exact ⟨by simp, .nil⟩

end Owlchain.Vibe
